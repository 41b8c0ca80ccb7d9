/-
# Assembling what was read

A graph that is assembled as it was read gives the same units again, if execution gets
to every unit, no jump lands behind the first extension unit of a run, and instructions
without an operand have argument zero. The layout and the operands are as they were
(`Wordcode.Proofs.Unedited`), and as every operand was read from the extension units
before it, none of them is too narrow.

Key definitions: `Stream.Standing`.
Key theorems: `Stream.Standing.words_eq`, `Stream.Unedited.relax`,
`Stream.Unedited.assemble`.
-/
import Wordcode.Proofs.Unedited

namespace Wordcode

namespace Stream

/-! ### Runs of units that were read -/

open Relaxation

/-- The runs of a graph that was read, at their places, with the arguments that they were
read with. -/
structure Standing (isa : InstructionSet) (words : List Word) (g : Graph) (placed : List Placed) :
    Prop where
  consecutive : Consecutive 0 placed
  shaped : ∀ p ∈ placed, Shaped isa g p.run
  nodes_eq : (placed.flatMap fun p => p.run.nodes) = List.range g.size
  width_eq : ∀ p ∈ placed, p.width = p.run.reserved.length
  operand : ∀ p ∈ placed, (folded isa words 0)[p.run.instruction]? = some p.operand

namespace Standing

variable {isa : InstructionSet} {words : List Word} {pools : Pools} {g : Graph}
  {placed : List Placed} {p q : Placed}

section Places

variable (hs : Standing isa words g placed)
include hs

theorem length_nodes (hp : p ∈ placed) : p.run.nodes.length = p.width + 1 := by
  rw [Run.nodes, List.length_append, ← hs.width_eq p hp]
  rfl

theorem lt (hp : p ∈ placed) : p.start + p.width < g.size := by
  have hlt := lt_length_of_mem hs.consecutive (fun p hp => hs.length_nodes hp) hp
  rw [hs.nodes_eq, List.length_range, Nat.sub_zero] at hlt
  exact hlt

theorem getElem?_nodes (hp : p ∈ placed) {j : Nat} (hj : j ≤ p.width) :
    p.run.nodes[j]? = some (p.start + j) := by
  have hat := getElem?_flatMap hs.consecutive (fun p hp => hs.length_nodes hp) hp hj
  have hlt := hs.lt hp
  rw [hs.nodes_eq, Nat.sub_zero, List.getElem?_range (by omega)] at hat
  exact hat.symm

theorem instruction (hp : p ∈ placed) : p.run.instruction = p.start + p.width := by
  have hat := hs.getElem?_nodes hp (Nat.le_refl p.width)
  rw [Run.nodes, hs.width_eq p hp, List.getElem?_append_right (Nat.le_refl _), Nat.sub_self] at hat
  rw [hs.width_eq p hp]
  exact Option.some.inj hat

theorem extension (hp : p ∈ placed) {j : Nat} (hj : j < p.width) :
    (g.node (p.start + j)).isExtension isa = true := by
  have hat := hs.getElem?_nodes hp (Nat.le_of_lt hj)
  rw [Run.nodes, List.getElem?_append_left (by rwa [← hs.width_eq p hp])] at hat
  exact (hs.shaped p hp).reserved _ (List.mem_of_getElem? hat)

theorem not_extension (hp : p ∈ placed) : (g.node (p.start + p.width)).isExtension isa = false := by
  rw [← hs.instruction hp]
  exact (hs.shaped p hp).instruction

theorem argument (hp : p ∈ placed) : (folded isa words 0)[p.start + p.width]? = some p.operand := by
  rw [← hs.instruction hp]
  exact hs.operand p hp

end Places

variable (h : Unedited isa words pools g) (hs : Standing isa words g placed)
include h hs

/-- Units before the instruction carry leading parts of its argument. -/
theorem leading (hp : p ∈ placed) : ∀ i ≤ p.width,
    (folded isa words 0)[p.start + (p.width - i)]? = some (p.operand / 256 ^ i)
  | 0, _ => by
    rw [Nat.sub_zero, Nat.pow_zero, Nat.div_one]
    exact hs.argument hp
  | i + 1, hi => by
    have hbehind := leading hp i (Nat.le_of_lt hi)
    have hlt := hs.lt hp
    have hnext : p.start + (p.width - i) = p.start + (p.width - (i + 1)) + 1 := by omega
    obtain ⟨word, argument, hw, ha⟩ := h.at_lt (show p.start + (p.width - (i + 1)) < g.size by omega)
    obtain ⟨word', argument', hw', ha'⟩ := h.at_lt (show p.start + (p.width - i) < g.size by omega)
    have hext := hs.extension hp (show p.width - (i + 1) < p.width by omega)
    rw [Node.isExtension, h.flags hw ha] at hext
    rw [hnext] at hw' hbehind
    rw [getElem?_folded_succ isa hw hw' ha, if_pos hext] at hbehind
    have hdigit := word'.arg.toNat_lt
    have hvalue : argument * 256 + word'.arg.toNat = p.operand / 256 ^ i := Option.some.inj hbehind
    rw [ha, Nat.pow_succ, ← Nat.div_div_eq_div_mul, ← hvalue]
    congr 1
    omega

theorem first_lt (hp : p ∈ placed) : p.operand / 256 ^ p.width < 256 := by
  have hfirst := hs.leading h hp p.width (Nat.le_refl _)
  have hlt := hs.lt hp
  rw [Nat.sub_self, Nat.add_zero] at hfirst
  obtain ⟨word, argument, hw, ha⟩ := h.at_lt (show p.start < g.size by omega)
  have hdigit := word.arg.toNat_lt
  rcases hs.consecutive.first_or_behind hp with hzero | ⟨q, hq, hbehind⟩
  · rw [hzero] at hw hfirst
    rw [getElem?_folded_zero isa 0 hw] at hfirst
    have hvalue := Option.some.inj hfirst
    omega
  · have hqlt := hs.lt hq
    obtain ⟨word', argument', hw', ha'⟩ := h.at_lt hqlt
    have hext := hs.not_extension hq
    rw [Node.isExtension, h.flags hw' ha'] at hext
    rw [hbehind] at hw hfirst
    rw [getElem?_folded_succ isa hw' hw ha', hext] at hfirst
    have hvalue := Option.some.inj hfirst
    simp only [Bool.false_eq_true, if_false] at hvalue
    omega

theorem fits (hp : p ∈ placed) : extraDigits p.operand ≤ p.width := by
  apply extraDigits_le_of_lt
  have hfirst := hs.first_lt h hp
  rw [Nat.div_lt_iff_lt_mul (Nat.pow_pos (by decide))] at hfirst
  rw [Nat.pow_succ, Nat.mul_comm]
  exact hfirst

/-- **The units are written as they were read.** -/
theorem words_eq (hisa : isa.Regular) : placed.flatMap (wordsOf isa g) = words := by
  have hlen : (placed.flatMap (wordsOf isa g)).length = g.size := by
    rw [← List.length_range (n := g.size), ← hs.nodes_eq, List.length_flatMap, List.length_flatMap]
    congr 1
    exact List.map_congr_left fun p hp => (length_wordsOf p).trans (hs.length_nodes hp).symm
  apply List.ext_getElem?
  intro k
  by_cases hk : k < g.size
  · obtain ⟨p, hp, j, hj, heq⟩ := exists_of_lt_length hs.consecutive
      (fun p _ => length_wordsOf p) (hlen.symm ▸ hk)
    obtain rfl : k = p.start + j := by omega
    obtain ⟨word, argument, hw, ha⟩ := h.at_lt hk
    have hpart := hs.leading h hp (p.width - j) (Nat.sub_le _ _)
    have hplace : p.width - (p.width - j) = j := by omega
    rw [hplace, ha] at hpart
    have hargument : argument = p.operand / 256 ^ (p.width - j) := Option.some.inj hpart
    have hdigit : word.arg = digit p.operand (p.width - j) := by
      apply UInt8.toNat_inj.mp
      rw [toNat_digit, ← hargument, folded_mod isa hw ha]
    have hop := h.opcode hw ha
    rw [hw]
    by_cases hext : j < p.width
    · have hflag := hs.extension hp hext
      have hopcode : word.opcode = isa.extension := by
        have hreg := (hisa.opcodes word.opcode).extension_eq
        rw [Node.isExtension, h.flags hw ha] at hflag
        exact beq_iff_eq.mp (hreg.symm.trans hflag)
      rw [getElem?_words_extension hs.consecutive hp hext, ← hopcode, ← hdigit]
    · obtain rfl : j = p.width := by omega
      rw [Nat.sub_self] at hdigit
      rw [getElem?_words_instruction hs.consecutive hp, hs.instruction hp, hop, ← hdigit]
  · have hge := Nat.not_lt.mp hk
    rw [List.getElem?_eq_none (by omega), List.getElem?_eq_none (by rw [← h.size_eq]; omega)]

omit h in
theorem units_eq : placed.flatMap unitsOf = List.range g.size := by
  rw [← hs.nodes_eq]
  refine List.flatMap_congr fun p hp => ?_
  have hlen := hs.length_nodes hp
  apply List.ext_getElem?
  intro j
  unfold unitsOf
  by_cases hj : j ≤ p.width
  · rw [hs.getElem?_nodes hp hj, List.getElem?_map,
      List.getElem?_range (by rw [← hs.width_eq p hp]; omega)]
    rfl
  · rw [List.getElem?_eq_none (by rw [List.length_map, List.length_range, ← hs.width_eq p hp]; omega),
      List.getElem?_eq_none (by omega)]

theorem asks (hland : ∀ n t, g.branch? isa n = some (t + 1) → (g.node t).isExtension isa = false)
    (hp : p ∈ placed)
    (hargument : (g.node p.run.instruction).isJump isa = false → p.operand = p.run.argument) :
    Asks isa g placed p := by
  refine ⟨hargument, fun hj => ?_⟩
  rw [hs.instruction hp] at hj ⊢
  obtain ⟨word, argument, hw, ha⟩ := h.at_lt (hs.lt hp)
  obtain rfl : argument = p.operand := Option.some.inj (ha.symm.trans (hs.argument hp))
  obtain ⟨t, ht, hb, hdistance⟩ := h.jumps hw ha hj
  have hmem : t ∈ placed.flatMap fun p => p.run.nodes := by
    rw [hs.nodes_eq]
    exact List.mem_range.mpr ht
  obtain ⟨q, hq, htq⟩ := List.mem_flatMap.mp hmem
  obtain ⟨j, hj', hat⟩ := List.mem_iff_getElem.mp htq
  have hjle : j ≤ q.width := by
    rw [hs.length_nodes hq] at hj'
    omega
  have heq : t = q.start + j := by
    have hnode := hs.getElem?_nodes hq hjle
    rw [List.getElem?_eq_getElem hj', hat] at hnode
    exact Option.some.inj hnode
  -- no jump leads behind an extension unit, so the target is the first unit of its run
  have hfirst : j = 0 := by
    by_contra hne
    have hbefore : t = q.start + (j - 1) + 1 := by omega
    have hbranch : g.branch? isa (p.start + p.width) = some (q.start + (j - 1) + 1) :=
      Graph.branch?_eq_some.mpr ⟨hj, hbefore ▸ hb⟩
    have hext := hs.extension hq (show j - 1 < q.width by omega)
    rw [hland _ _ hbranch] at hext
    cases hext
  have hstart : q.start = t := by omega
  refine ⟨t, q, hq, hb, htq, ?_⟩
  rw [hstart]
  exact hdistance p.start p.width rfl

end Standing

/-! ### Relaxation -/

/-- The operands that runs of units were read with. -/
def operandsOf (isa : InstructionSet) (words : List Word) (runs : List Run) : List Nat :=
  runs.map fun r => ((folded isa words 0)[r.instruction]?).getD 0

variable {isa : InstructionSet} {words : List Word} {pools : Pools} {g : Graph}

namespace Unedited

open Assembly

variable (h : Unedited isa words pools g)
include h

theorem last_not_extension (hisa : isa.Regular) {n : Nat}
    (hn : (List.range g.size).getLast? = some n) : (g.node n).isExtension isa = false := by
  rw [List.getLast?_range] at hn
  by_cases hzero : g.size = 0
  · rw [if_pos hzero] at hn
    cases hn
  · rw [if_neg hzero] at hn
    obtain rfl := Option.some.inj hn
    by_contra hext
    obtain ⟨word, argument, hw, ha⟩ := h.at_lt (show g.size - 1 < g.size by omega)
    -- an extension unit falls through, but there is nothing behind the last
    have hidle := (hisa.opcodes (g.node (g.size - 1)).opcode).idle
      (Or.inl (Bool.not_eq_false _ ▸ hext))
    have hlt := h.falls hw ha hidle.1
    omega

variable {g₂ : Graph} (hsame : g.SameCode g₂) {arguments : List Nat}
  (hlen : arguments.length = (List.range g.size).length) {runs : List Run}
  (hruns : runsOf isa g₂ (List.range g.size) arguments = .ok runs)
include hsame hlen hruns

/-- The runs of the graph stand where they were read. -/
theorem standing : Standing isa words g
    (place 0 runs (runs.map (·.reserved.length)) (operandsOf isa words runs)) := by
  obtain ⟨hnodes, hshaped⟩ := runsOf_spec hlen.ge hruns
  have hw : (runs.map (·.reserved.length)).length = runs.length := List.length_map _
  have ho : (operandsOf isa words runs).length = runs.length := List.length_map _
  have hmap := map_run_place 0 hw ho
  constructor
  · exact consecutive_place ..
  · intro p hp
    obtain ⟨i, hrun, -⟩ := getElem?_of_mem_place hw ho hp
    exact (hshaped _ (List.mem_of_getElem? hrun)).1.of_sameCode hsame.symm
  · rw [← hnodes, ← hmap, List.flatMap_map, hmap]
  · intro p hp
    obtain ⟨i, hrun, hwidth, -⟩ := getElem?_of_mem_place hw ho hp
    rw [List.getElem?_map, hrun] at hwidth
    exact (Option.some.inj hwidth).symm
  · intro p hp
    obtain ⟨i, hrun, -, hoperand⟩ := getElem?_of_mem_place hw ho hp
    have hmem := (List.of_mem_zip (hshaped _ (List.mem_of_getElem? hrun)).2).1
    obtain ⟨word, argument, -, ha⟩ := h.at_lt (List.mem_range.mp hmem)
    rw [operandsOf, List.getElem?_map, hrun, Option.map_some, ha] at hoperand
    rw [ha]
    exact hoperand

theorem fits_asks
    (hland : ∀ n t, g.branch? isa n = some (t + 1) → (g.node t).isExtension isa = false)
    (harguments : ∀ k argument : Nat, (folded isa words 0)[k]? = some argument →
      (g.node k).isExtension isa = false → (g.node k).isJump isa = false →
      arguments[k]? = some argument) :
    ∀ p ∈ place 0 runs (runs.map (·.reserved.length)) (operandsOf isa words runs),
      extraDigits p.operand ≤ p.width ∧
        Asks isa g₂ (place 0 runs (runs.map (·.reserved.length)) (operandsOf isa words runs)) p := by
  intro p hp
  have hstanding := h.standing hsame hlen hruns
  have hw : (runs.map (·.reserved.length)).length = runs.length := List.length_map _
  have ho : (operandsOf isa words runs).length = runs.length := List.length_map _
  obtain ⟨i, hrun, -⟩ := getElem?_of_mem_place hw ho hp
  have hmem := ((runsOf_spec hlen.ge hruns).2 _ (List.mem_of_getElem? hrun)).2
  have hread : (g.node p.run.instruction).isJump isa = false → p.operand = p.run.argument := by
    intro hjump
    have hgiven := harguments _ _ (hstanding.operand p hp) (hstanding.shaped p hp).instruction hjump
    obtain ⟨k, hk, hzip⟩ := List.mem_iff_getElem.mp hmem
    rw [List.length_zip] at hk
    rw [List.getElem_zip, List.getElem_range, Prod.mk.injEq] at hzip
    rw [← hzip.1, List.getElem?_eq_getElem (by omega), hzip.2] at hgiven
    exact (Option.some.inj hgiven).symm
  exact ⟨hstanding.fits h hp, (asks_of_sameCode hsame).mpr (hstanding.asks h hland hp hread)⟩

omit hlen hruns in
/-- **Relaxation ends at once, with the units that were read.** -/
theorem relax (hisa : isa.Regular)
    (hland : ∀ n t, g.branch? isa n = some (t + 1) → (g.node t).isExtension isa = false)
    (hlen : arguments.length = g.size)
    (harguments : ∀ k argument : Nat, (folded isa words 0)[k]? = some argument →
      (g.node k).isExtension isa = false → (g.node k).isJump isa = false →
      arguments[k]? = some argument) :
    ∃ g', Wordcode.relax isa g₂ (List.range g.size) arguments = .ok (g',
      { words, units := List.range g.size, iterations := 1, inserted := 0 }) ∧ g.SameCode g' := by
  have hlen' : arguments.length = (List.range g.size).length := by rw [hlen, List.length_range]
  have hlast : ∀ n, (List.range g.size).getLast? = some n → (g₂.node n).isExtension isa = false := by
    intro n hn
    rw [hsame.isExtension]
    exact h.last_not_extension hisa hn
  obtain ⟨runs, hruns⟩ := exists_runsOf hlen' hlast
  have hstanding := h.standing hsame hlen' hruns
  have ho : (operandsOf isa words runs).length = runs.length := List.length_map _
  have hrelax := relax_of_fits List.nodup_range hlen' hruns ho
    (h.fits_asks hsame hlen' hruns hland harguments)
  have hwords : (place 0 runs (runs.map (·.reserved.length)) (operandsOf isa words runs)).flatMap
      (wordsOf isa g₂) = words := by
    refine Eq.trans ?_ (hstanding.words_eq h hisa)
    exact List.flatMap_congr fun p _ => wordsOf_of_sameCode hsame p
  have hinserted : words.length - (List.range g.size).length = 0 := by
    rw [List.length_range, h.size_eq, Nat.sub_self]
  simp only [hwords, hstanding.units_eq, hinserted] at hrelax
  exact ⟨_, hrelax, hsame.trans (sameCode_bind _ g₂)⟩

end Unedited

/-- **Assembly gives the units that were read.** -/
theorem Unedited.assemble (h : Unedited isa words pools g) (hisa : isa.Regular)
    {handlers : List NodeId} (hroots : ∀ r ∈ 0 :: handlers, r < g.size)
    (hlive : ∀ k < g.size, g.Live isa (0 :: handlers) k)
    (hland : ∀ n t, g.branch? isa n = some (t + 1) → (g.node t).isExtension isa = false)
    (hzero : ∀ (k : Nat) (word : Word), words[k]? = some word →
      (isa.flags word.opcode).hasArgument = false → (folded isa words 0)[k]? = some 0) :
    ∃ g', g.assemble isa 0 handlers pools = (g', .ok
      { words, pools, layout := List.range g.size, units := List.range g.size, stats := ⟨1, 0⟩ }) ∧
      g.SameCode g' := by
  have hlin := h.linearize hisa hroots hlive
  obtain ⟨operands, g₂, arguments, hcol, hnum, hsame, hlen, harguments⟩ :=
    h.exists_arguments hisa hzero
  obtain ⟨g', hrel, hsame'⟩ := h.relax hsame hisa hland hlen harguments
  exact ⟨g', Graph.assemble_of_steps hlin hcol hnum hrel, hsame'⟩

end Stream

end Wordcode
