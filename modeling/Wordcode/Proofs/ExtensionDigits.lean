/-
# Digits in extension units

An operand is a word of 32 bits and its digits are found by shifting it, while a reader folds
digits in a word of 64 bits and gives up when more than 32 of them are in use. How many extension
units a run has is not limited: those that were laid out are kept, whatever the operand. So places
of digits go beyond the word, where the digits are 0 (`Relaxation.digit_toNat`), and what is folded
has to stay within its word however many digits there are (`Stream.push_eq`).

It does, since all that is ever folded is a part of the operand: the `count` digits above its
`place` lowest ones (`Relaxation.push_digit`). After the whole run this is the operand without
the digits for which there are no extension units, so it is the operand if and only if there are
as many as it needs (`Relaxation.part_eq_self_iff`).

Key definitions: `Relaxation.shiftedDigit`, `Relaxation.part`, `Relaxation.extensionNodes`,
`Stream.push`.
Key theorems: `Relaxation.digit_toNat`, `Stream.readNodes_cons_eq_push`, `Relaxation.push_digit`,
`Relaxation.readNodes_wordsOf`, `Relaxation.relax_run`, `Relaxation.digits_fold_back`.
-/
import Wordcode.Proofs.BuiltIn
import Wordcode.Proofs.Emission

namespace Wordcode

/-! ### Words of 32 and 64 bits -/

namespace Relaxation

/-- The digit of an operand with `place` lower digits, by a shift of fewer than 32 bits. -/
def shiftedDigit (operand : UInt32) (place : Nat) : UInt8 :=
  if 32 ≤ 8 * place then 0 else ((operand >>> UInt32.ofNat (8 * place)) &&& 0xff).toUInt8

/-- The digits of a 32 bit operand are found by shifting it, and there are no more of them than
fit into it. -/
theorem digit_toNat (operand : UInt32) (place : Nat) :
    digit operand.toNat place = shiftedDigit operand place := by
  refine UInt8.toNat_inj.mp ?_
  rw [toNat_digit, shiftedDigit]
  split
  · rename_i hbeyond
    have hpow : 256 ^ 4 ≤ 256 ^ place := Nat.pow_le_pow_right (by decide) (by omega)
    have hlt : operand.toNat < 256 ^ 4 := operand.toNat_lt
    rw [Nat.div_eq_of_lt (Nat.lt_of_lt_of_le hlt hpow)]
    rfl
  · rename_i hwithin
    have hshift : (UInt32.ofNat (8 * place)).toNat % 32 = 8 * place := by
      rw [UInt32.toNat_ofNat']
      omega
    have hmask : (0xff : UInt32).toNat = 2 ^ 8 - 1 := rfl
    rw [UInt32.toNat_toUInt8, UInt32.toNat_and, UInt32.toNat_shiftRight, hshift, hmask,
      Nat.and_two_pow_sub_one_eq_mod, Nat.mod_mod, Nat.shiftRight_eq_div_pow, Nat.pow_mul]

end Relaxation

namespace Stream

/-- The argument of a unit, folded in a word of 64 bits; `pending` is the value of the digits
before. There is none if it takes more than 32 bits. The first pass over a stream folds so
(`readNodes_cons_eq_push`). -/
def push (pending : UInt32) (arg : UInt8) : Option UInt32 :=
  let argument : UInt64 := pending.toUInt64 <<< 8 ||| arg.toUInt64
  if 0xffffffff < argument then none else some argument.toUInt32

theorem toNat_shiftLeft_or (pending : UInt32) (arg : UInt8) :
    (pending.toUInt64 <<< 8 ||| arg.toUInt64).toNat = pending.toNat * 256 + arg.toNat := by
  have hpending := pending.toNat_lt
  have harg : arg.toNat < 2 ^ 8 := arg.toNat_lt
  have hshift : (8 : UInt64).toNat % 64 = 8 := rfl
  have hroom : pending.toNat <<< 8 < 2 ^ 64 := by
    rw [Nat.shiftLeft_eq]
    omega
  rw [UInt64.toNat_or, UInt64.toNat_shiftLeft, UInt32.toNat_toUInt64, UInt8.toNat_toUInt64, hshift,
    Nat.mod_eq_of_lt hroom, ← Nat.shiftLeft_add_eq_or_of_lt harg, Nat.shiftLeft_eq]

theorem push_eq (pending : UInt32) (arg : UInt8) : push pending arg =
    if UInt32.size ≤ pending.toNat * 256 + arg.toNat then none
    else some (UInt32.ofNat (pending.toNat * 256 + arg.toNat)) := by
  have hvalue := toNat_shiftLeft_or pending arg
  have hbound : (0xffffffff : UInt64) < pending.toUInt64 <<< 8 ||| arg.toUInt64 ↔
      UInt32.size ≤ pending.toNat * 256 + arg.toNat := by
    rw [UInt64.lt_iff_toNat_lt, hvalue]
    exact Nat.lt_iff_add_one_le
  unfold push
  simp only [hbound]
  congr 2
  refine UInt32.toNat_inj.mp ?_
  rw [UInt64.toNat_toUInt32, hvalue, UInt32.toNat_ofNat']

variable {isa : InstructionSet} {pools : Pools}

/-- The first pass folds in words of 64 bits. -/
theorem readNodes_cons_eq_push (word : Word) (rest : List Word) (offset : Nat) (pending : UInt32) :
    readNodes isa pools (word :: rest) offset pending.toNat =
      match push pending word.arg with
      | none => .error (.oversizedArgument offset)
      | some argument => do
        let node ← readNode isa pools word argument.toNat offset
        let later ← readNodes isa pools rest (offset + 2)
          (if (isa.flags word.opcode).extension then argument.toNat else 0)
        return (node, argument.toNat) :: later := by
  rw [readNodes, push_eq]
  by_cases hbig : UInt32.size ≤ pending.toNat * 256 + word.arg.toNat
  · simp only [if_pos hbig]
  · have hsmall : (UInt32.ofNat (pending.toNat * 256 + word.arg.toNat)).toNat =
        pending.toNat * 256 + word.arg.toNat := UInt32.toNat_ofNat_of_lt' (Nat.not_le.mp hbig)
    simp only [if_neg hbig, hsmall]

end Stream

namespace Relaxation

open Wordcode.Stream

variable {isa : InstructionSet} {g : Graph} {pools : Pools}

/-! ### Parts of an operand -/

section Parts

/-- The `count` digits of an operand above its `place` lowest ones. -/
def part (operand : UInt32) (place count : Nat) : UInt32 :=
  UInt32.ofNat (operand.toNat / 256 ^ place % 256 ^ count)

theorem toNat_part (operand : UInt32) (place count : Nat) :
    (part operand place count).toNat = operand.toNat / 256 ^ place % 256 ^ count := by
  refine UInt32.toNat_ofNat_of_lt' (Nat.lt_of_le_of_lt ?_ operand.toNat_lt)
  exact (Nat.mod_le _ _).trans (Nat.div_le_self _ _)

theorem part_zero (operand : UInt32) (place : Nat) : part operand place 0 = 0 := by
  rw [part, Nat.pow_zero, Nat.mod_one]
  rfl

/-- **One digit more.** The digit below a part of the operand makes the next longer part, which
is a 32 bit word like every part. -/
theorem push_digit (operand : UInt32) (place count : Nat) :
    push (part operand (place + 1) count) (digit operand.toNat place) =
      some (part operand place (count + 1)) := by
  have hnext : operand.toNat / 256 ^ (place + 1) % 256 ^ count * 256 +
      (digit operand.toNat place).toNat = operand.toNat / 256 ^ place % 256 ^ (count + 1) := by
    rw [toNat_digit, Nat.pow_succ, Nat.pow_succ, ← Nat.div_div_eq_div_mul,
      Nat.mul_comm (256 ^ count) 256, Nat.mod_mul, Nat.mul_comm, Nat.add_comm]
  have hlt := (part operand place (count + 1)).toNat_lt
  rw [toNat_part] at hlt
  rw [push_eq, toNat_part, hnext, if_neg (Nat.not_le.mpr hlt), part]

/-- **The digits of a run are the operand** exactly if it has the extension units for them. -/
theorem part_eq_self_iff (operand : UInt32) (width : Nat) :
    part operand 0 (width + 1) = operand ↔ extraDigits operand.toNat ≤ width := by
  rw [← UInt32.toNat_inj, toNat_part, Nat.pow_zero, Nat.div_one,
    Nat.mod_eq_iff_lt (Nat.pow_pos (by decide)).ne']
  constructor
  · exact extraDigits_le_of_lt
  · intro hwide
    have hzero := div_pow_eq_zero operand.toNat_lt hwide
    exact (Nat.div_eq_zero_iff_lt (Nat.pow_pos (by decide))).mp hzero

end Parts

/-! ### Reading a run -/

section Reading

variable {run : Run} {operand : UInt32} {start width : Nat}

theorem map_arg_extensionWords (operand : Nat) : ∀ width : Nat,
    (extensionWords isa operand width).map (·.arg) =
      (List.range width).map fun j => digit operand (width - j)
  | 0 => rfl
  | width + 1 => by
    rw [extensionWords, List.map_cons, map_arg_extensionWords operand width, List.range_succ_eq_map,
      List.map_cons, List.map_map]
    congr 1
    refine List.map_congr_left fun j _ => ?_
    rw [Function.comp_apply, Nat.succ_eq_add_one, Nat.add_sub_add_right]

theorem map_arg_wordsOf : (wordsOf isa g ⟨run, start, width, operand.toNat⟩).map (·.arg) =
    (List.range (width + 1)).map fun j => shiftedDigit operand (width - j) := by
  rw [wordsOf, List.map_append, map_arg_extensionWords, List.range_succ, List.map_append]
  simp only [digit_toNat, List.map_cons, List.map_nil, Nat.sub_self]

variable (isa) in
theorem foldlM_extensionWords (operand : UInt32) : ∀ width count : Nat,
    ((extensionWords isa operand.toNat width).map (·.arg)).foldlM push
      (part operand (width + 1) count) = some (part operand 1 (count + width))
  | 0, _ => rfl
  | width + 1, count => by
    rw [extensionWords, List.map_cons, List.foldlM_cons, push_digit]
    have hlater := foldlM_extensionWords operand width (count + 1)
    rwa [Nat.add_assoc, Nat.add_comm 1] at hlater

theorem foldlM_wordsOf :
    ((wordsOf isa g ⟨run, start, width, operand.toNat⟩).map (·.arg)).foldlM push 0 =
      some (part operand 0 (width + 1)) := by
  have hfirst := foldlM_extensionWords isa operand width 0
  rw [part_zero, Nat.zero_add] at hfirst
  rw [wordsOf, List.map_append, List.foldlM_append, hfirst]
  have hlast := push_digit operand 0 width
  exact congrArg (fun argument => argument >>= some) hlast

variable (isa) in
/-- The extension units of a run as they are read, with their arguments, if `count` digits stand
before them. -/
def extensionNodes (operand : UInt32) (width count offset : Nat) : List (Node × Nat) :=
  (List.range width).map fun j =>
    ({ opcode := isa.extension, offset := some (offset + 2 * j) },
      (part operand (width - j) (count + j + 1)).toNat)

theorem extensionNodes_succ (operand : UInt32) (width count offset : Nat) :
    extensionNodes isa operand (width + 1) count offset =
      ({ opcode := isa.extension, offset := some offset },
        (part operand (width + 1) (count + 1)).toNat) ::
          extensionNodes isa operand width (count + 1) (offset + 2) := by
  rw [extensionNodes, List.range_succ_eq_map, List.map_cons, List.map_map]
  congr 1
  refine List.map_congr_left fun j _ => ?_
  have hoffset : offset + 2 * (j + 1) = offset + 2 + 2 * j := by omega
  have hcount : count + (j + 1) + 1 = count + 1 + j + 1 := by omega
  rw [Function.comp_apply, Nat.succ_eq_add_one, Nat.add_sub_add_right, hoffset, hcount]

variable (pools) in
theorem readNodes_extensionWords (hext : (isa.flags isa.extension).extension = true)
    (operand : UInt32) (rest : List Word) : ∀ width count offset : Nat,
    readNodes isa pools (extensionWords isa operand.toNat width ++ rest) offset
      (part operand (width + 1) count).toNat = do
        let later ← readNodes isa pools rest (offset + 2 * width)
          (part operand 1 (count + width)).toNat
        return extensionNodes isa operand width count offset ++ later
  | 0, _, _ => (bind_pure _).symm
  | width + 1, count, offset => by
    have hnode : ∀ argument, readNode isa pools ⟨isa.extension, digit operand.toNat (width + 1)⟩
        argument offset = .ok { opcode := isa.extension, offset := some offset } := by
      intro argument
      rw [InstructionSet.flags] at hext
      rw [readNode]
      simp only [hext, Bool.not_true, Bool.false_and, Bool.false_eq_true, if_false]
    have hoffset : offset + 2 * (width + 1) = offset + 2 + 2 * width := by omega
    have hcount : count + (width + 1) = count + 1 + width := by omega
    rw [extensionWords, List.cons_append, readNodes_cons_eq_push, push_digit, extensionNodes_succ,
      hoffset, hcount]
    simp only [hnode, hext, if_true]
    rw [readNodes_extensionWords hext operand rest width (count + 1) (offset + 2)]
    simp only [bind_assoc, pure_bind, List.cons_append]
    rfl

/-- **A run is read** as its extension units and its instruction, which gets as many digits of
the operand as there are units. -/
theorem readNodes_wordsOf (hext : (isa.flags isa.extension).extension = true)
    (hinstr : (g.node run.instruction).isExtension isa = false) (rest : List Word) (offset : Nat) :
    readNodes isa pools (wordsOf isa g ⟨run, start, width, operand.toNat⟩ ++ rest) offset 0 = do
      let node ← readNode isa pools ⟨(g.node run.instruction).opcode, digit operand.toNat 0⟩
        (part operand 0 (width + 1)).toNat (offset + 2 * width)
      let later ← readNodes isa pools rest (offset + 2 * (width + 1)) 0
      return extensionNodes isa operand width 0 offset ++
        (node, (part operand 0 (width + 1)).toNat) :: later := by
  have hinstr' : (isa.flags (g.node run.instruction).opcode).extension = false := hinstr
  have hunits := readNodes_extensionWords pools hext operand
    (⟨(g.node run.instruction).opcode, digit operand.toNat 0⟩ :: rest) width 0 offset
  rw [part_zero, Nat.zero_add] at hunits
  rw [wordsOf, List.append_assoc, List.singleton_append]
  refine hunits.trans ?_
  rw [readNodes_cons_eq_push, push_digit]
  simp only [hinstr', Bool.false_eq_true, if_false, bind_assoc, pure_bind, Nat.mul_succ,
    Nat.add_assoc]

end Reading

/-! ### Emitting a run -/

section Emitting

variable {run : Run} {arguments : List Nat}

theorem foldr_addToRuns_reserved {n argument : Nat} : ∀ {reserved arguments : List Nat},
    arguments.length = reserved.length → (∀ m ∈ reserved, (g.node m).isExtension isa = true) →
    (reserved.zip arguments).foldr (addToRuns isa g) ([], [⟨[], n, argument⟩]) =
      ([], [⟨reserved, n, argument⟩])
  | [], _, _, _ => rfl
  | _ :: _, [], hlen, _ => by cases hlen
  | m :: reserved, a :: arguments, hlen, hext => by
    rw [List.forall_mem_cons] at hext
    rw [List.zip_cons_cons, List.foldr_cons,
      foldr_addToRuns_reserved (Nat.succ.inj hlen) hext.2]
    simp only [addToRuns, hext.1, if_true]

theorem runsOf_nodes (hrun : Shaped isa g run) (hlen : arguments.length = run.reserved.length) :
    runsOf isa g run.nodes (arguments ++ [run.argument]) = .ok [run] := by
  have hlast : addToRuns isa g (run.instruction, run.argument) ([], []) =
      ([], [⟨[], run.instruction, run.argument⟩]) := by
    simp only [addToRuns, hrun.instruction, Bool.false_eq_true, if_false]
  rw [runsOf, Run.nodes, List.zip_append hlen.symm, List.foldr_append, List.zip_cons_cons,
    List.zip_nil_left, List.foldr_cons, List.foldr_nil, hlast,
    foldr_addToRuns_reserved hlen hrun.reserved]

theorem tooNarrow_singleton (width operand : Nat) :
    tooNarrow [width] [operand] = if width < extraDigits operand then 1 else 0 := by
  simp only [tooNarrow, List.zip_cons_cons, List.zip_nil_left, List.countP_cons, List.countP_nil,
    decide_eq_true_eq, Nat.zero_add]

variable (hjump : (g.node run.instruction).isJump isa = false)
include hjump

theorem operandsFor_run (owner : Std.HashMap NodeId Nat) (width : Nat) :
    operandsFor isa g owner [run] [width] = .ok [run.argument] := by
  simp only [operandsFor, startsFrom, operandsFrom, operandOf, hjump, Bool.false_eq_true, if_false]
  rfl

theorem settle_run_of_fits {owner : Std.HashMap NodeId Nat} {left iteration width : Nat}
    (hwide : extraDigits run.argument ≤ width) :
    settle isa g owner [run] left iteration [width] =
      .ok ⟨[width], [run.argument], iteration⟩ := by
  unfold settle
  simp only [operandsFor_run hjump, tooNarrow_singleton, if_neg (Nat.not_lt.mpr hwide)]

theorem exists_settle_run (owner : Std.HashMap NodeId Nat) (left iteration width : Nat) :
    ∃ rounds, settle isa g owner [run] (left + 1) iteration [width] =
      .ok ⟨[max width (extraDigits run.argument)], [run.argument], rounds⟩ := by
  by_cases hwide : extraDigits run.argument ≤ width
  · refine ⟨iteration, ?_⟩
    rw [Nat.max_eq_left hwide]
    exact settle_run_of_fits hjump hwide
  · refine ⟨iteration + 1, ?_⟩
    unfold settle
    simp only [operandsFor_run hjump, tooNarrow_singleton, if_pos (Nat.not_le.mp hwide), widen,
      List.zipWith_cons_cons, List.zipWith_nil_left]
    exact settle_run_of_fits hjump (Nat.le_max_right _ _)

/-- **A run that is laid out alone** keeps its extension units and gets those that it lacks. -/
theorem relax_run (hrun : Shaped isa g run) (hlen : arguments.length = run.reserved.length) :
    ∃ g' r, relax isa g run.nodes (arguments ++ [run.argument]) = .ok (g', r) ∧
      r.words = wordsOf isa g ⟨run, 0, max run.reserved.length (extraDigits run.argument),
        run.argument⟩ := by
  obtain ⟨rounds, hsettle⟩ := exists_settle_run hjump (owners [run]) 3 1 run.reserved.length
  have hsettle' : settle isa g (owners [run]) [run] (3 * [run].length + 1) 1
      ([run].map (·.reserved.length)) = _ := hsettle
  simp only [relax, runsOf_nodes hrun hlen, hsettle', place, List.flatMap_cons, List.flatMap_nil,
    List.append_nil]
  exact ⟨_, _, rfl, rfl⟩

end Emitting

/-- **The digits of an operand fold back to it.** However many extension units a run has, its
bytes are the digits of the operand, those beyond 32 bits being 0, and folding them never takes
more than 32 bits. What it gives is the operand if the run has the extension units that the
operand needs, and otherwise it is not. The run is read so wherever it stands: each extension unit
with the part of the operand that ends there, the instruction with all that was folded. And these
are the units of a run that is laid out alone and keeps its extension units, or gets those that it
lacks. -/
theorem digits_fold_back (isa : InstructionSet) (g : Graph) (run : Run) (operand : UInt32)
    (start width : Nat) :
    let p : Placed := ⟨run, start, width, operand.toNat⟩
    let argument := part operand 0 (width + 1)
    (wordsOf isa g p).map (·.arg) =
        (List.range (width + 1)).map (fun j => shiftedDigit operand (width - j)) ∧
      ((wordsOf isa g p).map (·.arg)).foldlM push 0 = some argument ∧
      (argument = operand ↔ extraDigits operand.toNat ≤ width) ∧
      ((isa.flags isa.extension).extension = true → Shaped isa g run →
        (∀ pools rest offset, readNodes isa pools (wordsOf isa g p ++ rest) offset 0 = do
          let node ← readNode isa pools ⟨(g.node run.instruction).opcode, shiftedDigit operand 0⟩
            argument.toNat (offset + 2 * width)
          let later ← readNodes isa pools rest (offset + 2 * (width + 1)) 0
          return extensionNodes isa operand width 0 offset ++ (node, argument.toNat) :: later) ∧
        ∀ arguments, (g.node run.instruction).isJump isa = false →
          run.argument = operand.toNat → arguments.length = run.reserved.length →
          width = max run.reserved.length (extraDigits operand.toNat) →
          ∃ g' r, relax isa g run.nodes (arguments ++ [operand.toNat]) = .ok (g', r) ∧
            r.words = wordsOf isa g p) := by
  refine ⟨map_arg_wordsOf, foldlM_wordsOf, part_eq_self_iff operand width, fun hext hrun =>
    ⟨fun pools rest offset => ?_, fun arguments hjump hargument hlen hwidth => ?_⟩⟩
  · rw [← digit_toNat]
    exact readNodes_wordsOf hext hrun.instruction rest offset
  · obtain ⟨g', r, hrelax, hwords⟩ := relax_run hjump hrun hlen
    rw [hargument] at hrelax hwords
    exact ⟨g', r, hrelax, hwords.trans (by rw [hwidth]; rfl)⟩

/-- With five extension units the operand `0x1020304` is folded back, with two it is not. -/
theorem digits_fold_back_reserved :
    let isa := InstructionSet.python38
    let unit : Node := { opcode := ⟨144⟩ }
    let g : Graph := ⟨#[unit, unit, unit, unit, unit, { opcode := ⟨102⟩ }]⟩
    let run : Run := ⟨[0, 1, 2, 3, 4], 5, 0x1020304⟩
    let words : List Word :=
      [⟨⟨144⟩, 0⟩, ⟨⟨144⟩, 0⟩, ⟨⟨144⟩, 1⟩, ⟨⟨144⟩, 2⟩, ⟨⟨144⟩, 3⟩, ⟨⟨102⟩, 4⟩]
    (isa.flags isa.extension).extension = true ∧ Shaped isa g run ∧
      (g.node run.instruction).isJump isa = false ∧
      (∃ g' r, relax isa g run.nodes [0, 0, 0, 0, 0, 0x1020304] = .ok (g', r) ∧ r.words = words) ∧
      (∃ nodes, readNodes isa {} words 0 0 = .ok nodes ∧
        nodes.map (·.2) = [0, 0, 1, 0x102, 0x10203, 0x1020304]) ∧
      ∃ argument, ((wordsOf isa g ⟨run, 0, 2, 0x1020304⟩).map (·.arg)).foldlM push 0 = some argument ∧
        argument = 0x20304 := by
  intro isa unit g run words
  have hext : (isa.flags isa.extension).extension = true := by
    rw [InstructionSet.flags, InstructionSet.info_eq rfl]
    decide +kernel
  have hunit : (isa.flags ⟨144⟩).extension = true := hext
  have hinstr : isa.flags ⟨102⟩ = { hasArgument := true } := by
    rw [InstructionSet.flags, InstructionSet.info_eq rfl]
    decide +kernel
  have hflags : (isa.info ⟨102⟩).flags = { hasArgument := true } := hinstr
  have hkind : (isa.info ⟨102⟩).operand = .raw := by
    rw [InstructionSet.info_eq rfl]
    decide +kernel
  have hrun : Shaped isa g run := by
    refine ⟨fun n hn => ?_, ?_⟩
    · have hnode : g.node n = unit := by
        simp only [run, List.mem_cons, List.not_mem_nil, or_false] at hn
        rcases hn with rfl | rfl | rfl | rfl | rfl <;> rfl
      rw [hnode]
      exact hunit
    · exact congrArg Flags.extension hinstr
  have hjump : (g.node run.instruction).isJump isa = false := congrArg Flags.isJump hinstr
  obtain ⟨-, -, -, hrest⟩ := digits_fold_back isa g run 0x1020304 0 5
  obtain ⟨hread, hrelax⟩ := hrest hext hrun
  have hwords : wordsOf isa g ⟨run, 0, 5, (0x1020304 : UInt32).toNat⟩ = words := by
    decide +kernel
  refine ⟨hext, hrun, hjump, ?_, ?_, ?_⟩
  · obtain ⟨g', r, h, hw⟩ := hrelax [0, 0, 0, 0, 0] hjump rfl rfl rfl
    exact ⟨g', r, h, hw.trans hwords⟩
  · have hnode : readNode isa {} ⟨⟨102⟩, 4⟩ 0x1020304 10 =
        .ok { opcode := ⟨102⟩, offset := some 10, operand := .raw 0x1020304 } := by
      simp only [readNode, readOperand, hflags, hkind]
      rfl
    have hdigit : shiftedDigit 0x1020304 0 = 4 := by decide
    have hpart : (part 0x1020304 0 (5 + 1)).toNat = 0x1020304 := by decide
    have hmap : (extensionNodes isa 0x1020304 5 0 0).map (·.2) = [0, 0, 1, 0x102, 0x10203] := by
      decide +kernel
    have hunits := hread {} [] 0
    rw [hwords, List.append_nil, hdigit, hpart] at hunits
    refine ⟨_, hunits.trans (congrArg (· >>= _) hnode), ?_⟩
    rw [List.map_append, hmap]
    rfl
  · obtain ⟨-, hfold, -⟩ := digits_fold_back isa g run 0x1020304 0 2
    exact ⟨_, hfold, by decide +kernel⟩

end Relaxation

end Wordcode
