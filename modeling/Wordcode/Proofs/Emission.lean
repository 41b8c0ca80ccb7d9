/-
# Reading back what is emitted

The digits of an operand, high to low, fold back to the operand: after the digits
down to place `j` the value is the operand without its `j` lowest digits. If the
operand fits into its extension units, folding starts from nothing, so runs are
read independently of each other, and each unit of a run has for its argument a
leading part of the operand (`Relaxation.foldedOf`).

The operand of a jump was measured between the places of two runs. Landing undoes the
measurement if the distance is a 32 bit number, and measuring where a jump lands gives its
operand again.

Key definitions: `Relaxation.foldedOf`, `Relaxation.reach`.
Key theorems: `Relaxation.folded_wordsOf`, `Relaxation.folded_flatMap_wordsOf`,
`Relaxation.getElem?_words_instruction`, `Relaxation.getElem?_arguments`,
`Relaxation.jumpTarget?_of_distance`, `Relaxation.distance_of_jumpTarget?`,
`Relaxation.node_bind_of_mem`.
-/
import Mathlib.Algebra.Ring.Nat
import Wordcode.Proofs.Reading
import Wordcode.Proofs.Relaxation

namespace Wordcode

namespace Relaxation

open Wordcode.Stream

variable {isa : InstructionSet} {g : Graph}

/-! ### Digits -/

section Digits

theorem toNat_digit (operand place : Nat) : (digit operand place).toNat = operand / 256 ^ place % 256 := by
  rw [digit, Nat.shiftRight_eq_div_pow, Nat.pow_mul]
  exact UInt8.toNat_ofNat'

/-- A digit below those above it. -/
theorem div_pow_succ_add_digit (operand place : Nat) :
    operand / 256 ^ (place + 1) * 256 + (digit operand place).toNat = operand / 256 ^ place := by
  rw [toNat_digit, Nat.pow_succ, ← Nat.div_div_eq_div_mul, Nat.mul_comm]
  exact Nat.div_add_mod _ _

theorem div_pow_eq_zero {operand width : Nat} (hlt : operand < UInt32.size)
    (hwide : extraDigits operand ≤ width) : operand / 256 ^ (width + 1) = 0 := by
  have hneed : operand < 256 ^ (extraDigits operand + 1) := by
    unfold extraDigits
    simp only [UInt32.size] at hlt
    repeat' split
    all_goals omega
  refine Nat.div_eq_of_lt (Nat.lt_of_lt_of_le hneed ?_)
  exact Nat.pow_le_pow_right (by decide) (Nat.succ_le_succ hwide)

theorem extraDigits_le_of_lt {operand width : Nat} (h : operand < 256 ^ (width + 1)) :
    extraDigits operand ≤ width := by
  by_cases hwide : 3 ≤ width
  · exact Nat.le_trans (extraDigits_le operand) hwide
  · unfold extraDigits
    have hsmall : width = 0 ∨ width = 1 ∨ width = 2 := by omega
    rcases hsmall with rfl | rfl | rfl <;> repeat' split
    all_goals omega

@[simp] theorem length_extensionWords (operand : Nat) : ∀ width : Nat,
    (extensionWords isa operand width).length = width
  | 0 => rfl
  | width + 1 => by rw [extensionWords, List.length_cons, length_extensionWords operand width]

theorem getElem?_extensionWords (operand : Nat) : ∀ {width j : Nat}, j < width →
    (extensionWords isa operand width)[j]? = some ⟨isa.extension, digit operand (width - j)⟩
  | width + 1, 0, _ => rfl
  | width + 1, j + 1, h => by
    rw [extensionWords, List.getElem?_cons_succ, getElem?_extensionWords operand (by omega),
      Nat.add_sub_add_right]

end Digits

/-! ### Folding -/

section Folding

/-- The arguments of the units of a run: the operand with ever fewer of its low digits
left out. -/
def foldedOf (p : Placed) : List Nat :=
  (List.range (p.width + 1)).map fun j => p.operand / 256 ^ (p.width - j)

theorem getElem?_foldedOf {p : Placed} {j : Nat} (hj : j ≤ p.width) :
    (foldedOf p)[j]? = some (p.operand / 256 ^ (p.width - j)) := by
  rw [foldedOf, List.getElem?_map, List.getElem?_range (Nat.lt_succ_of_le hj)]
  rfl

theorem folded_extensionWords (hext : (isa.flags isa.extension).extension = true) (operand : Nat)
    (rest : List Word) : ∀ width : Nat,
    folded isa (extensionWords isa operand width ++ rest) (operand / 256 ^ (width + 1)) =
      (List.range width).map (fun j => operand / 256 ^ (width - j)) ++
        folded isa rest (operand / 256)
  | 0 => by simp [extensionWords]
  | width + 1 => by
    have hdigit := div_pow_succ_add_digit operand (width + 1)
    rw [extensionWords, List.cons_append, folded]
    simp only [hext, if_true, hdigit]
    rw [folded_extensionWords hext operand rest width, List.range_succ_eq_map, List.map_cons,
      List.map_map, List.cons_append]
    congr 2
    refine List.map_congr_left fun j _ => ?_
    simp [Nat.add_sub_add_right]

/-- A run that is wide enough is read by itself. -/
theorem folded_wordsOf (hext : (isa.flags isa.extension).extension = true) {p : Placed}
    (hinstr : (g.node p.run.instruction).isExtension isa = false) (hlt : p.operand < UInt32.size)
    (hwide : extraDigits p.operand ≤ p.width) (rest : List Word) :
    folded isa (wordsOf isa g p ++ rest) 0 = foldedOf p ++ folded isa rest 0 := by
  have hinstr' : (isa.flags (g.node p.run.instruction).opcode).extension = false := hinstr
  have hlast := div_pow_succ_add_digit p.operand 0
  rw [Nat.zero_add, Nat.pow_one, Nat.pow_zero, Nat.div_one] at hlast
  have hstart := folded_extensionWords hext p.operand
    ([⟨(g.node p.run.instruction).opcode, digit p.operand 0⟩] ++ rest) p.width
  rw [div_pow_eq_zero hlt hwide] at hstart
  rw [wordsOf, List.append_assoc, hstart, List.singleton_append, folded]
  simp only [hlast, hinstr', Bool.false_eq_true, if_false]
  rw [foldedOf, List.range_succ, List.map_append, List.append_assoc]
  simp

theorem folded_flatMap_wordsOf (hext : (isa.flags isa.extension).extension = true) :
    ∀ {placed : List Placed}, (∀ p ∈ placed, (g.node p.run.instruction).isExtension isa = false ∧
      p.operand < UInt32.size ∧ extraDigits p.operand ≤ p.width) →
    folded isa (placed.flatMap (wordsOf isa g)) 0 = placed.flatMap foldedOf
  | [], _ => rfl
  | p :: placed, h => by
    obtain ⟨hinstr, hlt, hwide⟩ := h p List.mem_cons_self
    rw [List.flatMap_cons, folded_wordsOf hext hinstr hlt hwide, List.flatMap_cons,
      folded_flatMap_wordsOf hext fun q hq => h q (List.mem_cons_of_mem _ hq)]

end Folding

/-! ### Units of the code -/

section Units

theorem length_wordsOf (p : Placed) : (wordsOf isa g p).length = p.width + 1 := by
  simp [wordsOf]

theorem length_foldedOf (p : Placed) : (foldedOf p).length = p.width + 1 := by
  simp [foldedOf]

variable {placed : List Placed} {p : Placed} {j : Nat}

theorem getElem?_words_extension (h : Consecutive 0 placed) (hp : p ∈ placed) (hj : j < p.width) :
    (placed.flatMap (wordsOf isa g))[p.start + j]? =
      some ⟨isa.extension, digit p.operand (p.width - j)⟩ := by
  have hat := getElem?_flatMap h (f := wordsOf isa g) (fun p _ => length_wordsOf p) hp
    (Nat.le_of_lt hj)
  rw [Nat.sub_zero, wordsOf, List.getElem?_append_left (by simpa using hj),
    getElem?_extensionWords p.operand hj] at hat
  exact hat

theorem getElem?_words_instruction (h : Consecutive 0 placed) (hp : p ∈ placed) :
    (placed.flatMap (wordsOf isa g))[p.start + p.width]? =
      some ⟨(g.node p.run.instruction).opcode, digit p.operand 0⟩ := by
  have hat := getElem?_flatMap h (f := wordsOf isa g) (fun p _ => length_wordsOf p) hp
    (Nat.le_refl _)
  rw [Nat.sub_zero, wordsOf, List.getElem?_append_right (by simp)] at hat
  rw [hat]
  simp

theorem getElem?_arguments (h : Consecutive 0 placed) (hp : p ∈ placed) (hj : j ≤ p.width) :
    (placed.flatMap foldedOf)[p.start + j]? = some (p.operand / 256 ^ (p.width - j)) := by
  have hat := getElem?_flatMap h (f := foldedOf) (fun p _ => length_foldedOf p) hp hj
  rw [Nat.sub_zero, getElem?_foldedOf hj] at hat
  exact hat

end Units

/-! ### Where a jump lands -/

section Jumps

variable {flags : Flags} {opcode : Opcode} {start width target operand : Nat}

variable (flags start width target) in
/-- How many units a jump goes: from the start of the code if it is absolute, else from its
own end. -/
def reach : Nat :=
  if flags.jumpAbsolute then target
  else if flags.jumpBackward then start + width + 1 - target
  else target - (start + width + 1)

/-- A distance is a number of units, up to the largest 32 bit number, and a relative jump
goes the way its opcode says. -/
theorem distance_eq_ok_iff : distance isa flags opcode start width target = .ok operand ↔
    operand = min (reach flags start width target * 2 / isa.jumpUnit.size) (UInt32.size - 1) ∧
      (flags.jumpAbsolute = false → flags.jumpBackward = true ∧ target ≤ start + width + 1 ∨
        flags.jumpBackward = false ∧ start + width + 1 ≤ target) := by
  unfold distance reach
  cases flags.jumpAbsolute with
  | true => simp [@eq_comm Nat operand]
  | false =>
    cases flags.jumpBackward with
    | true => by_cases hle : target ≤ start + width + 1 <;> simp [hle, @eq_comm Nat operand]
    | false => by_cases hle : start + width + 1 ≤ target <;> simp [hle, @eq_comm Nat operand]

theorem distance_lt (h : distance isa flags opcode start width target = .ok operand) :
    operand < UInt32.size := by
  obtain ⟨rfl, -⟩ := distance_eq_ok_iff.mp h
  have hmin := Nat.min_le_right (reach flags start width target * 2 / isa.jumpUnit.size)
    (UInt32.size - 1)
  simp only [UInt32.size] at hmin ⊢
  omega

/-- **A jump lands where its distance was measured to**, if the distance is a 32 bit
number. -/
theorem jumpTarget?_of_distance {count : Nat}
    (hreach : reach flags start width target * 2 / isa.jumpUnit.size < UInt32.size)
    (htarget : target < count) (h : distance isa flags opcode start width target = .ok operand) :
    Stream.jumpTarget? isa flags operand ((start + width) * 2) (count * 2) = some target := by
  obtain ⟨hoperand, hway⟩ := distance_eq_ok_iff.mp h
  rw [Nat.min_eq_left (Nat.le_sub_one_of_lt hreach)] at hoperand
  -- the operand counts bytes or units; either way it stands for as many units
  have hbytes : operand * isa.jumpUnit.size = reach flags start width target * 2 := by
    rw [hoperand]
    cases isa.jumpUnit with
    | bytes => rw [JumpUnit.size, Nat.div_one, Nat.mul_one]
    | instructions => rw [JumpUnit.size, Nat.mul_div_cancel _ (by decide)]
  have hland : target * 2 % 2 = 0 ∧ target * 2 < count * 2 := by omega
  simp only [Stream.jumpTarget?, hbytes, reach]
  cases habs : flags.jumpAbsolute with
  | true => simp [hland]
  | false =>
    rcases hway habs with ⟨hback, hle⟩ | ⟨hback, hle⟩
    · have hto : (start + width) * 2 + 2 - (start + width + 1 - target) * 2 = target * 2 := by omega
      have hfrom : (start + width + 1 - target) * 2 ≤ (start + width) * 2 + 2 := by omega
      simp only [hback, Bool.false_eq_true, if_false, if_true, if_pos hfrom, hto]
      simp [hland]
    · have hto : (start + width) * 2 + 2 + (target - (start + width + 1)) * 2 = target * 2 := by omega
      simp only [hback, Bool.false_eq_true, if_false, hto]
      simp [hland]

/-- Where a jump lands is as far away as its operand says. -/
theorem reach_of_jumpTarget? {count : Nat}
    (h : Stream.jumpTarget? isa flags operand ((start + width) * 2) (count * 2) = some target) :
    reach flags start width target * 2 = operand * isa.jumpUnit.size ∧ target < count ∧
      (flags.jumpAbsolute = false → flags.jumpBackward = true ∧ target ≤ start + width + 1 ∨
        flags.jumpBackward = false ∧ start + width + 1 ≤ target) := by
  unfold Stream.jumpTarget? at h
  unfold reach
  simp only at h
  have hland : ∀ address : Nat,
      (if address % 2 = 0 ∧ address < count * 2 then some (address / 2) else none) = some target →
      address = target * 2 ∧ target < count := by
    intro address ha
    split at ha
    · have hhalf : address / 2 = target := Option.some.inj ha
      omega
    · cases ha
  cases habs : flags.jumpAbsolute with
  | true =>
    rw [if_pos habs] at h
    obtain ⟨haddress, htarget⟩ := hland _ h
    exact ⟨haddress.symm, htarget, fun hno => nomatch hno⟩
  | false =>
    rw [if_neg (by rw [habs]; exact Bool.false_ne_true)] at h
    rw [if_neg Bool.false_ne_true]
    cases hback : flags.jumpBackward with
    | true =>
      rw [if_pos hback] at h
      rw [if_pos rfl]
      by_cases hle : operand * isa.jumpUnit.size ≤ (start + width) * 2 + 2
      · simp only [if_pos hle] at h
        obtain ⟨haddress, htarget⟩ := hland _ h
        exact ⟨by omega, htarget, fun _ => Or.inl ⟨rfl, by omega⟩⟩
      · simp only [if_neg hle, reduceCtorEq] at h
    | false =>
      rw [if_neg (by rw [hback]; exact Bool.false_ne_true)] at h
      rw [if_neg Bool.false_ne_true]
      obtain ⟨haddress, htarget⟩ := hland _ h
      exact ⟨by omega, htarget, fun _ => Or.inr ⟨rfl, by omega⟩⟩

/-- **Measuring where a jump lands gives its operand.** -/
theorem distance_of_jumpTarget? {count : Nat} (hlt : operand < UInt32.size)
    (h : Stream.jumpTarget? isa flags operand ((start + width) * 2) (count * 2) = some target) :
    distance isa flags opcode start width target = .ok operand ∧ target < count := by
  obtain ⟨hreach, htarget, hway⟩ := reach_of_jumpTarget? h
  have hpos : 0 < isa.jumpUnit.size := by
    cases isa.jumpUnit <;> decide
  refine ⟨distance_eq_ok_iff.mpr ⟨?_, hway⟩, htarget⟩
  rw [hreach, Nat.mul_div_cancel operand hpos]
  omega

end Jumps

/-! ### Offsets -/

section Offsets

theorem sameCode_bind : ∀ (offsets : List (NodeId × Nat)) (g : Graph), g.SameCode (bind g offsets)
  | [], g => .refl g
  | p :: rest, g => by
    have hone : g.SameCode (g.modify p.1 ({ · with offset := some p.2 })) :=
      g.sameCode_modify p.1 fun _ => rfl
    exact hone.trans (sameCode_bind rest _)

theorem node_bind : ∀ {offsets : List (Nat × Nat)} {g : Graph} {n : Nat},
    n ∉ offsets.map (·.1) → (bind g offsets).node n = g.node n
  | [], _, _, _ => rfl
  | p :: rest, g, n, hn => by
    rw [List.map_cons, List.mem_cons, not_or] at hn
    have hrest : (bind (g.modify p.1 ({ · with offset := some p.2 })) rest).node n =
        (g.modify p.1 ({ · with offset := some p.2 })).node n := node_bind hn.2
    rw [Graph.node_modify, if_neg fun h => hn.1 h.1.symm] at hrest
    exact hrest

/-- A node that is bound once is as it was but for the offset. -/
theorem node_bind_of_mem : ∀ {offsets : List (NodeId × Nat)} {g : Graph},
    (offsets.map (·.1)).Nodup → ∀ {n : NodeId} {o : Nat}, (n, o) ∈ offsets → n < g.size →
      (bind g offsets).node n = { g.node n with offset := some o }
  | p :: rest, g, hnd, n, o, hmem, hn => by
    rw [List.map_cons, List.nodup_cons] at hnd
    rcases List.mem_cons.mp hmem with rfl | hmem
    · have hrest : (bind (g.modify n ({ · with offset := some o })) rest).node n =
          (g.modify n ({ · with offset := some o })).node n := node_bind hnd.1
      rw [Graph.node_modify, if_pos ⟨rfl, hn⟩] at hrest
      exact hrest
    · have hrest := node_bind_of_mem (g := g.modify p.1 ({ · with offset := some p.2 })) hnd.2 hmem
        (by rwa [Graph.size_modify])
      refine Eq.trans hrest ?_
      rw [Graph.node_modify]
      split <;> rfl

theorem offset_bind {offsets : List (NodeId × Nat)} {g : Graph} (hnd : (offsets.map (·.1)).Nodup)
    {n : NodeId} {o : Nat} (hmem : (n, o) ∈ offsets) (hn : n < g.size) :
    ((bind g offsets).node n).offset = some o :=
  congrArg Node.offset (node_bind_of_mem hnd hmem hn)

theorem keys_offsetsOf (p : Placed) : (offsetsOf p).map (·.1) = p.run.nodes := by
  rw [offsetsOf, List.map_append, List.map_map, Run.nodes]
  congr 1
  exact List.zipIdx_map_fst 0 p.run.reserved

end Offsets

end Relaxation

end Wordcode
