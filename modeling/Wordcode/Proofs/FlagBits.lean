/-
# Splitting and joining operands

What `split` takes apart `join` puts together, in both directions, but for one case. An
operand with a flag bit may have bits above that bit. They are part of the index when it is
split, and an index that is as large as the flag bit is refused when it is joined. So the
arguments that are not joined again are those that have bits above their flag bit.

Key definitions: `FlagPacking.IsFlags`, `FlagPacking.Crowded`.
Key theorems: `FlagPacking.join_split`, `FlagPacking.split_of_join`.
-/
import Mathlib.Algebra.Group.Nat.Defs
import Wordcode.FlagPacking

namespace Wordcode

namespace FlagPacking

/-- The flags are in the flag bits. -/
def IsFlags : FlagPacking → Nat → Prop
  | .none, flags => flags = 0
  | .lowBits n, flags => flags < 2 ^ n
  | .highBit b, flags => flags = 0 ∨ flags = 2 ^ b

/-- The argument has bits above its flag bit. -/
def Crowded : FlagPacking → Nat → Prop
  | .highBit b, argument => 2 ^ (b + 1) ≤ argument
  | _, _ => False

instance (p : FlagPacking) (argument : Nat) : Decidable (p.Crowded argument) :=
  match p with
  | .none | .lowBits _ => inferInstanceAs (Decidable False)
  | .highBit b => inferInstanceAs (Decidable (2 ^ (b + 1) ≤ argument))

variable {p : FlagPacking} {index flags argument : Nat}

/-! ### Low flag bits -/

theorem split_lowBits (n argument : Nat) :
    (lowBits n).split argument = (argument / 2 ^ n, argument % 2 ^ n) := by
  rw [split, Nat.shiftRight_eq_div_pow, Nat.one_shiftLeft]

theorem join_lowBits {n : Nat} (hflags : flags < 2 ^ n) : (lowBits n).join index flags =
    if UInt32.size ≤ index * 2 ^ n then Option.none else some (index * 2 ^ n + flags) := by
  rw [join, ← Nat.shiftLeft_add_eq_or_of_lt hflags, Nat.shiftLeft_eq]

/-! ### A high flag bit -/

theorem split_highBit (b argument : Nat) : (highBit b).split argument =
    if argument / 2 ^ b % 2 = 1 then (argument - 2 ^ b, 2 ^ b) else (argument, 0) := by
  rw [split, Nat.testBit_eq_decide_div_mod_eq, Nat.one_shiftLeft]
  simp only [decide_eq_true_eq]

theorem join_highBit {b : Nat} (hflags : flags = 0 ∨ flags = 2 ^ b) : (highBit b).join index flags =
    if 2 ^ b ≤ index then Option.none else some (index + flags) := by
  rw [join, Nat.one_shiftLeft]
  by_cases hle : 2 ^ b ≤ index
  · rw [if_pos hle, if_pos hle]
  · rw [if_neg hle, if_neg hle]
    rcases hflags with rfl | rfl
    · rw [Nat.or_zero, Nat.add_zero]
    · have hor := Nat.two_pow_add_eq_or_of_lt (Nat.not_le.mp hle) 1
      rw [Nat.mul_one] at hor
      rw [Nat.or_comm, ← hor, Nat.add_comm]

/-! ### There and back -/

theorem isFlags_split (p : FlagPacking) (argument : Nat) : p.IsFlags (p.split argument).2 := by
  cases p with
  | none => rfl
  | lowBits n =>
    rw [split_lowBits]
    exact Nat.mod_lt _ (Nat.two_pow_pos n)
  | highBit b =>
    rw [split_highBit]
    split
    · exact Or.inr rfl
    · exact Or.inl rfl

/-- **What is split is joined again, unless there are bits above the flag bit.** -/
theorem join_split (p : FlagPacking) (h : argument < UInt32.size) :
    p.join (p.split argument).1 (p.split argument).2 =
      if p.Crowded argument then Option.none else some argument := by
  have hflags := p.isFlags_split argument
  cases p with
  | none => rfl
  | lowBits n =>
    rw [split_lowBits] at hflags ⊢
    have hle : argument / 2 ^ n * 2 ^ n ≤ argument := Nat.div_mul_le_self argument (2 ^ n)
    have hfits : ¬ UInt32.size ≤ argument / 2 ^ n * 2 ^ n :=
      Nat.not_le.mpr (Nat.lt_of_le_of_lt hle h)
    rw [join_lowBits hflags, if_neg hfits, if_neg (show ¬ Crowded _ _ from id), Nat.div_add_mod']
  | highBit b =>
    rw [join_highBit hflags, split_highBit]
    have hpos := Nat.two_pow_pos b
    have hcrowded : (highBit b).Crowded argument ↔ 2 ≤ argument / 2 ^ b := by
      rw [Nat.le_div_iff_mul_le hpos, ← Nat.pow_succ']
      rfl
    have hdiv := Nat.div_add_mod argument (2 ^ b)
    have hlt := Nat.mod_lt argument hpos
    simp only [hcrowded]
    generalize argument / 2 ^ b = q at hdiv ⊢
    rcases (by omega : q = 0 ∨ q = 1 ∨ 2 ≤ q) with rfl | rfl | hq
    · exact if_neg (show ¬ 2 ^ b ≤ argument by omega)
    · have hback : argument - 2 ^ b + 2 ^ b = argument := by omega
      rw [if_pos rfl, if_neg (show ¬ 2 ^ b ≤ argument - 2 ^ b by omega), hback]
      rfl
    · have hle := Nat.mul_le_mul_left (2 ^ b) hq
      rw [if_pos hq]
      split
      · exact if_pos (show 2 ^ b ≤ argument - 2 ^ b by omega)
      · exact if_pos (show 2 ^ b ≤ argument by omega)

/-- **What is joined is split again.** -/
theorem split_of_join (hflags : p.IsFlags flags) (h : p.join index flags = some argument) :
    p.split argument = (index, flags) := by
  cases p with
  | none =>
    obtain rfl : flags = 0 := hflags
    obtain rfl := Option.some.inj h
    rfl
  | lowBits n =>
    have hflags : flags < 2 ^ n := hflags
    rw [join_lowBits hflags] at h
    split at h
    · cases h
    · obtain rfl := Option.some.inj h
      rw [split_lowBits, Nat.mul_comm, Nat.mul_add_div (Nat.two_pow_pos n),
        Nat.div_eq_of_lt hflags, Nat.add_zero, Nat.mul_add_mod, Nat.mod_eq_of_lt hflags]
  | highBit b =>
    rw [join_highBit hflags] at h
    split at h
    · cases h
    · rename_i hlt
      obtain rfl := Option.some.inj h
      have hindex : index / 2 ^ b = 0 := Nat.div_eq_of_lt (Nat.not_le.mp hlt)
      rw [split_highBit]
      rcases hflags with rfl | rfl
      · rw [Nat.add_zero, hindex]
        rfl
      · rw [Nat.add_div_right index (Nat.two_pow_pos b), hindex, Nat.add_sub_cancel]
        rfl

end FlagPacking

end Wordcode
