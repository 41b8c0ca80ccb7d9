/-
# Rounds of widening

Relaxation starts from the extension units that were laid out and widens them, round
after round, to what the operands need. `Relaxation.widthsAt` holds the widths with
which each round begins. A round that is not the last adds at least one extension unit
and no instruction is ever given more than three, so with `n` instructions at most
`3 * n + 1` rounds are needed and the limit on them is never met.

Widening moves code and never moves two runs closer together, and a jump that leads
forward stays one. So operands only grow with the widths, whichever way a jump leads,
and the widths of each round stay below any widths that suffice: relaxation ends with
the least of them.

Key definitions: `Relaxation.widthsAt`, `Relaxation.inserted`, `Relaxation.Suffices`,
`Relaxation.Narrowest`.
Key theorems: `Relaxation.settle_ends`, `Relaxation.relax_ends`,
`Relaxation.operandsFor_mono`, `Relaxation.Suffices.widthsAt_le`,
`Relaxation.narrowest_of_settle`, `Relaxation.relax_least`.
-/
import Wordcode.Proofs.BuiltIn
import Wordcode.Proofs.Emission

namespace Wordcode

namespace Relaxation

variable (isa : InstructionSet) (g : Graph) (runs : List Run)

/-! ### Rounds -/

/-- The widths after a round that begins with the given ones, unless it fails or is the
last. -/
def wider (widths : List Nat) : Option (List Nat) :=
  match operandsFor isa g (owners runs) runs widths with
  | .error _ => none
  | .ok operands => if tooNarrow widths operands = 0 then none else some (widen widths operands)

/-- The widths with which round `k + 1` begins, if there is one. -/
def widthsAt : (k : Nat) → Option (List Nat)
  | 0 => some (runs.map (·.reserved.length))
  | k + 1 => (widthsAt k).bind (wider isa g runs)

/-- How many extension units there are beyond those that were laid out. -/
def inserted (widths : List Nat) : Nat :=
  (List.zipWith (fun r width => width - r.reserved.length) runs widths).sum

/-- All extension units that were laid out, and at most three more for an
instruction. -/
def Bounded (widths : List Nat) : Prop :=
  List.Forall₂ (fun r width => r.reserved.length ≤ width ∧ width ≤ r.reserved.length + 3) runs widths

variable {isa g runs} {widths operands next layout arguments : List Nat} {k : Nat}

theorem wider_eq_some_iff : wider isa g runs widths = some next ↔ ∃ operands,
    operandsFor isa g (owners runs) runs widths = .ok operands ∧ tooNarrow widths operands ≠ 0 ∧
      next = widen widths operands := by
  unfold wider
  cases operandsFor isa g (owners runs) runs widths with
  | error e => simp
  | ok operands => simp [eq_comm]

theorem widthsAt_succ (hk : widthsAt isa g runs k = some widths) :
    widthsAt isa g runs (k + 1) = wider isa g runs widths := by
  rw [widthsAt, hk, Option.bind_some]

theorem bounded_reserved : ∀ runs : List Run, Bounded runs (runs.map (·.reserved.length))
  | [] => .nil
  | _ :: runs => .cons ⟨Nat.le_refl _, Nat.le_add_right _ 3⟩ (bounded_reserved runs)

theorem Bounded.widen (h : Bounded runs widths) (hlen : operands.length = widths.length) :
    Bounded runs (widen widths operands) := by
  induction h generalizing operands with
  | nil => exact .nil
  | @cons r width runs widths hr _ ih =>
    obtain ⟨operand, operands, rfl⟩ := List.exists_cons_of_length_eq_add_one hlen
    refine .cons ⟨Nat.le_trans hr.1 (Nat.le_max_left _ _), Nat.max_le.mpr ⟨hr.2, ?_⟩⟩
      (ih (Nat.succ.inj hlen))
    exact Nat.le_trans (extraDigits_le operand) (Nat.le_add_left 3 _)

theorem Bounded.inserted_le (h : Bounded runs widths) : inserted runs widths ≤ 3 * runs.length := by
  unfold inserted
  induction h with
  | nil => exact Nat.le_refl 0
  | cons hr _ ih =>
    rw [List.zipWith_cons_cons, List.sum_cons, List.length_cons]
    omega

theorem inserted_mono {other : List Nat} (h : List.Forall₂ (· ≤ ·) widths other) :
    ∀ runs : List Run, inserted runs widths ≤ inserted runs other := by
  unfold inserted
  induction h with
  | nil => exact fun _ => Nat.le_refl _
  | cons hle _ ih =>
    intro runs
    cases runs with
    | nil => exact Nat.le_refl 0
    | cons r runs =>
      simp only [List.zipWith_cons_cons, List.sum_cons]
      exact Nat.add_le_add (Nat.sub_le_sub_right hle _) (ih runs)

theorem Bounded.inserted_lt_widen (h : Bounded runs widths) (hlen : operands.length = widths.length)
    (hnarrow : tooNarrow widths operands ≠ 0) :
    inserted runs widths < inserted runs (Relaxation.widen widths operands) := by
  induction h generalizing operands with
  | nil => exact absurd rfl hnarrow
  | @cons r width runs widths hr _ ih =>
    obtain ⟨operand, operands, rfl⟩ := List.exists_cons_of_length_eq_add_one hlen
    have hlater := inserted_mono (le_widen (List.forall₂_same.mpr fun w _ => Nat.le_refl w)
      (Nat.succ.inj hlen)) runs
    simp only [inserted, Relaxation.widen, List.zipWith_cons_cons, List.sum_cons] at hlater ⊢
    -- either this operand is too narrow, or one behind it
    by_cases hfirst : width < extraDigits operand
    · omega
    · have hsame : max width (extraDigits operand) = width := by omega
      have hrest' : tooNarrow widths operands ≠ 0 := by simpa [tooNarrow, hfirst] using hnarrow
      have hlt := ih (Nat.succ.inj hlen) hrest'
      simp only [inserted, Relaxation.widen] at hlt
      omega

theorem length_operandsFor (hw : widths.length = runs.length)
    (h : operandsFor isa g (owners runs) runs widths = .ok operands) :
    operands.length = widths.length :=
  ((operandsFrom_eq_ok_iff 0 hw).mp h).1.trans hw.symm

theorem Bounded.length_eq (h : Bounded runs widths) : widths.length = runs.length :=
  (List.Forall₂.length_eq h).symm

/-- **One round:** the widths stay in bounds and at least one extension unit is added. -/
theorem Bounded.wider (h : Bounded runs widths) (hnext : wider isa g runs widths = some next) :
    Bounded runs next ∧ inserted runs widths < inserted runs next := by
  obtain ⟨operands, hops, hnarrow, rfl⟩ := wider_eq_some_iff.mp hnext
  have hlen := length_operandsFor h.length_eq hops
  exact ⟨h.widen hlen, h.inserted_lt_widen hlen hnarrow⟩

theorem widthsAt_spec : ∀ {k : Nat} {widths : List Nat}, widthsAt isa g runs k = some widths →
    Bounded runs widths ∧ k ≤ inserted runs widths
  | 0, widths, h => by
    obtain rfl := Option.some.inj h
    exact ⟨bounded_reserved runs, Nat.zero_le _⟩
  | k + 1, widths, h => by
    obtain ⟨before, hbefore, hnext⟩ := Option.bind_eq_some_iff.mp h
    obtain ⟨hbounded, hk⟩ := widthsAt_spec hbefore
    obtain ⟨hwidths, hlt⟩ := hbounded.wider hnext
    exact ⟨hwidths, by omega⟩

theorem le_of_widthsAt (h : widthsAt isa g runs k = some widths) : k ≤ 3 * runs.length :=
  Nat.le_trans (widthsAt_spec h).2 (widthsAt_spec h).1.inserted_le

/-- **The limit on rounds is never met:** widening ends with an operand that cannot be
found, or with widths that are wide enough. -/
theorem settle_ends : ∀ (left k : Nat) {widths : List Nat},
    widthsAt isa g runs k = some widths → left + k = 3 * runs.length + 1 →
    ∃ last final, widthsAt isa g runs last = some final ∧
      ((∃ e, operandsFor isa g (owners runs) runs final = .error e ∧
          settle isa g (owners runs) runs left (k + 1) widths = .error (.graph e)) ∨
        ∃ operands, operandsFor isa g (owners runs) runs final = .ok operands ∧
          tooNarrow final operands = 0 ∧
          settle isa g (owners runs) runs left (k + 1) widths = .ok ⟨final, operands, last + 1⟩)
  | left, k, widths, hk, hleft => by
    unfold settle
    cases hops : operandsFor isa g (owners runs) runs widths with
    | error e => exact ⟨k, widths, hk, Or.inl ⟨e, hops, rfl⟩⟩
    | ok operands =>
      dsimp only
      split
      · rename_i hnarrow
        exact ⟨k, widths, hk, Or.inr ⟨operands, hops, hnarrow, rfl⟩⟩
      · have := le_of_widthsAt hk
        omega
      · rename_i hnarrow
        have hnext : widthsAt isa g runs (k + 1) = some (widen widths operands) := by
          rw [widthsAt_succ hk, wider_eq_some_iff]
          exact ⟨operands, hops, by omega, rfl⟩
        exact settle_ends _ (k + 1) hnext (by omega)

variable (isa g runs) in
theorem settle_reserved : ∃ last final, widthsAt isa g runs last = some final ∧
    ((∃ e, operandsFor isa g (owners runs) runs final = .error e ∧
        settle isa g (owners runs) runs (3 * runs.length + 1) 1 (runs.map (·.reserved.length)) =
          .error (.graph e)) ∨
      ∃ operands, operandsFor isa g (owners runs) runs final = .ok operands ∧
        tooNarrow final operands = 0 ∧
        settle isa g (owners runs) runs (3 * runs.length + 1) 1 (runs.map (·.reserved.length)) =
          .ok ⟨final, operands, last + 1⟩) :=
  settle_ends (3 * runs.length + 1) 0 rfl rfl

variable (isa g) in
theorem length_foldr_addToRuns : ∀ layout arguments : List Nat,
    ((layout.zip arguments).foldr (addToRuns isa g) ([], [])).2.length ≤
      layout.countP fun n => !(g.node n).isExtension isa
  | [], _ => Nat.zero_le _
  | _ :: _, [] => Nat.zero_le _
  | n :: layout, argument :: arguments => by
    have ih := length_foldr_addToRuns layout arguments
    rw [List.zip_cons_cons, List.foldr_cons, List.countP_cons]
    generalize (layout.zip arguments).foldr (addToRuns isa g) ([], []) = later at ih ⊢
    obtain ⟨stray, runs⟩ := later
    cases hext : (g.node n).isExtension isa with
    | false => simpa [addToRuns, hext] using ih
    | true =>
      cases runs with
      | nil => simp [addToRuns, hext]
      | cons r runs => simpa [addToRuns, hext] using ih

theorem le_last {last : Nat} {final : List Nat} (hlast : widthsAt isa g runs last = some final)
    (hend : wider isa g runs final = none) (hk : widthsAt isa g runs k = some widths) : k ≤ last := by
  by_contra hlt
  have hnone : ∀ d, widthsAt isa g runs (last + 1 + d) = none := by
    intro d
    induction d with
    | zero => rw [Nat.add_zero, widthsAt_succ hlast, hend]
    | succ d ih => rw [← Nat.add_assoc, widthsAt, ih, Option.bind_none]
  have hbehind := hnone (k - (last + 1))
  rw [Nat.add_sub_cancel' (by omega), hk] at hbehind
  cases hbehind

theorem length_runsOf_le (h : runsOf isa g layout arguments = .ok runs) :
    runs.length ≤ layout.countP fun n => !(g.node n).isExtension isa := by
  have hle := length_foldr_addToRuns isa g layout arguments
  unfold runsOf at h
  split at h
  · rename_i heq
    rwa [heq, Except.ok.inj h] at hle
  · cases h

/-- **Relaxation always ends.** Whatever the layout and the operands, with `n` instructions
laid out it never gives up. It goes through at most `3 * n + 1` rounds, the last being
round `last + 1`: each of them begins with all extension units that were laid out and at
most three more for an instruction, and each but the last adds at least one. It then stops
with an operand that cannot be found, or with widths that every operand fits into. -/
theorem relax_ends (isa : InstructionSet) (g : Graph) (layout arguments : List Nat) :
    let n := layout.countP fun m => !(g.node m).isExtension isa
    (∀ iterations narrow,
      relax isa g layout arguments ≠ .error (.relaxationDivergence iterations narrow)) ∧
    ((∃ e, runsOf isa g layout arguments = .error e ∧
        relax isa g layout arguments = .error (.graph e)) ∨
      ∃ runs last final, runsOf isa g layout arguments = .ok runs ∧ runs.length ≤ n ∧
        widthsAt isa g runs last = some final ∧ last + 1 ≤ 3 * n + 1 ∧
        (∀ k widths, widthsAt isa g runs k = some widths → k ≤ last ∧ Bounded runs widths ∧
          ∀ next, widthsAt isa g runs (k + 1) = some next →
            inserted runs widths < inserted runs next) ∧
        ((∃ e, operandsFor isa g (owners runs) runs final = .error e ∧
            relax isa g layout arguments = .error (.graph e)) ∨
          ∃ operands g' r, operandsFor isa g (owners runs) runs final = .ok operands ∧
            (∀ p ∈ place 0 runs final operands, extraDigits p.operand ≤ p.width) ∧
            relax isa g layout arguments = .ok (g', r) ∧ r.iterations = last + 1 ∧
            r.words = (place 0 runs final operands).flatMap (wordsOf isa g))) := by
  intro n
  unfold relax
  cases hruns : runsOf isa g layout arguments with
  | error e => exact ⟨by simp, Or.inl ⟨e, rfl, rfl⟩⟩
  | ok runs =>
    have hn := length_runsOf_le hruns
    obtain ⟨last, final, hlast, hend⟩ := settle_reserved isa g runs
    have hbound := le_of_widthsAt hlast
    have hrounds : wider isa g runs final = none → ∀ k widths, widthsAt isa g runs k = some widths →
        k ≤ last ∧ Bounded runs widths ∧ ∀ next, widthsAt isa g runs (k + 1) = some next →
          inserted runs widths < inserted runs next := by
      intro hnone k widths hk
      have hwidths := (widthsAt_spec hk).1
      refine ⟨le_last hlast hnone hk, hwidths, fun next hnext => ?_⟩
      exact (hwidths.wider ((widthsAt_succ hk).symm.trans hnext)).2
    rcases hend with ⟨e, hops, hsettle⟩ | ⟨operands, hops, hwide, hsettle⟩
    · have hnone : wider isa g runs final = none := by simp only [wider, hops]
      simp only [hsettle]
      exact ⟨by simp, Or.inr ⟨runs, last, final, rfl, hn, hlast, by omega, hrounds hnone,
        Or.inl ⟨e, hops, rfl⟩⟩⟩
    · have hnone : wider isa g runs final = none := by simp only [wider, hops, hwide, if_true]
      have hw := (widthsAt_spec hlast).1.length_eq
      simp only [hsettle]
      exact ⟨by simp, Or.inr ⟨runs, last, final, rfl, hn, hlast, by omega, hrounds hnone,
        Or.inr ⟨operands, _, _, hops,
          (tooNarrow_eq_zero_iff 0 hw ((length_operandsFor hw hops).trans hw)).mp hwide,
          rfl, rfl, rfl⟩⟩⟩

/-! ### The least widths -/

/-- How many units there are before run `i`. -/
def unitsBefore (widths : List Nat) (i : Nat) : Nat := (widths.take i).sum + i

theorem getElem?_startsFrom : ∀ (start : Nat) (widths : List Nat) {i : Nat}, i < widths.length →
    (startsFrom start widths)[i]? = some (start + unitsBefore widths i)
  | _, [], _, h => absurd h (Nat.not_lt_zero _)
  | start, _ :: _, 0, _ => rfl
  | start, width :: widths, i + 1, h => by
    rw [startsFrom, List.getElem?_cons_succ,
      getElem?_startsFrom (start + width + 1) widths (Nat.lt_of_succ_lt_succ h)]
    simp only [unitsBefore, List.take_succ_cons, List.sum_cons]
    congr 1
    omega

theorem unitsBefore_succ (widths : List Nat) (i : Nat) :
    unitsBefore widths (i + 1) = unitsBefore widths i + widths[i]?.getD 0 + 1 := by
  unfold unitsBefore
  rw [List.take_add_one, List.sum_append]
  cases widths[i]? <;> simp <;> omega

theorem unitsBefore_lt (widths : List Nat) {i j : Nat} (h : i < j) :
    unitsBefore widths i < unitsBefore widths j := by
  induction j with
  | zero => omega
  | succ j ih =>
    have hsucc := unitsBefore_succ widths j
    rcases Nat.lt_succ_iff_lt_or_eq.mp h with hlt | rfl
    · have := ih hlt
      omega
    · omega

theorem unitsBefore_le_iff (widths : List Nat) {i j : Nat} :
    unitsBefore widths i ≤ unitsBefore widths j ↔ i ≤ j := by
  constructor
  · intro h
    by_contra hlt
    have := unitsBefore_lt widths (Nat.lt_of_not_le hlt)
    omega
  · intro h
    rcases Nat.lt_or_eq_of_le h with hlt | rfl
    · exact Nat.le_of_lt (unitsBefore_lt widths hlt)
    · exact Nat.le_refl _

theorem getD_le_getD {other : List Nat} (hle : List.Forall₂ (· ≤ ·) widths other) (i : Nat) :
    widths[i]?.getD 0 ≤ other[i]?.getD 0 := by
  induction hle generalizing i with
  | nil => exact Nat.le_refl _
  | cons hle _ ih =>
    cases i with
    | zero => exact hle
    | succ i => exact ih i

theorem unitsBefore_spread {other : List Nat} (hle : List.Forall₂ (· ≤ ·) widths other) {i j : Nat}
    (h : i ≤ j) :
    unitsBefore widths j + unitsBefore other i ≤ unitsBefore other j + unitsBefore widths i := by
  induction h with
  | refl => omega
  | @step j _ ih =>
    have := getD_le_getD hle j
    rw [Nat.succ_eq_add_one, unitsBefore_succ, unitsBefore_succ]
    omega

variable {owner : Std.HashMap NodeId Nat} {other : List Nat}

/-- The operand of a jump between two places does not shrink when the places move, the
target to no earlier unit and both no closer together. -/
theorem distance_mono {flags : Flags} {opcode : Opcode}
    {start width target start' width' target' operand : Nat} (htarget : target ≤ target')
    (hback : target ≤ start + width + 1 → target' ≤ start' + width' + 1 ∧
      start + width + 1 + target' ≤ start' + width' + 1 + target)
    (hfore : start + width + 1 ≤ target → start' + width' + 1 ≤ target' ∧
      target + (start' + width' + 1) ≤ target' + (start + width + 1))
    (h : distance isa flags opcode start width target = .ok operand) :
    ∃ operand', distance isa flags opcode start' width' target' = .ok operand' ∧
      operand ≤ operand' := by
  have hmono : ∀ {a b : Nat}, a ≤ b → min (a * 2 / isa.jumpUnit.size) (UInt32.size - 1) ≤
      min (b * 2 / isa.jumpUnit.size) (UInt32.size - 1) := fun {a b} hab => by
    have := @Nat.div_le_div_right _ _ isa.jumpUnit.size (Nat.mul_le_mul_right 2 hab)
    omega
  unfold distance at h ⊢
  dsimp only at h ⊢
  split at h
  · obtain rfl := Except.ok.inj h
    rw [if_pos ‹_›]
    exact ⟨_, rfl, hmono htarget⟩
  · rw [if_neg ‹_›]
    split at h
    · rename_i hdir
      obtain rfl := Except.ok.inj h
      obtain ⟨hle, hfar⟩ := hback hdir.2
      rw [if_pos ⟨hdir.1, hle⟩]
      exact ⟨_, rfl, hmono (by omega)⟩
    · split at h
      · rename_i hdir
        obtain rfl := Except.ok.inj h
        obtain ⟨hle, hfar⟩ := hfore hdir.2
        rw [if_neg fun hb => hdir.1 hb.1, if_pos ⟨hdir.1, hle⟩]
        exact ⟨_, rfl, hmono (by omega)⟩
      · cases h

theorem getD_startsFrom (widths : List Nat) (t : Nat) : (startsFrom 0 widths).toArray.getD t 0 =
    if t < widths.length then unitsBefore widths t else 0 := by
  rw [Array.getD_eq_getD_getElem?, List.getElem?_toArray]
  split
  · rename_i ht
    rw [getElem?_startsFrom 0 widths ht, Option.getD_some, Nat.zero_add]
  · rename_i ht
    rw [List.getElem?_eq_none (by rw [length_startsFrom]; omega), Option.getD_none]

/-- The operand of run `i` does not shrink when runs widen. -/
theorem operandOf_mono (hle : List.Forall₂ (· ≤ ·) widths other) {r : Run} {i : Nat}
    {width width' operand : Nat} (hwidth : widths[i]? = some width) (hwidth' : other[i]? = some width')
    (h : operandOf isa g owner (startsFrom 0 widths).toArray r (unitsBefore widths i) width =
      .ok operand) :
    ∃ operand', operandOf isa g owner (startsFrom 0 other).toArray r (unitsBefore other i) width' =
      .ok operand' ∧ operand ≤ operand' := by
  have hfinish : unitsBefore widths i + width + 1 = unitsBefore widths (i + 1) := by
    rw [unitsBefore_succ, hwidth, Option.getD_some]
  have hfinish' : unitsBefore other i + width' + 1 = unitsBefore other (i + 1) := by
    rw [unitsBefore_succ, hwidth', Option.getD_some]
  have hmono := fun {a b : Nat} => @unitsBefore_le_iff widths a b
  have hmono' := fun {a b : Nat} => @unitsBefore_le_iff other a b
  have hspread := fun {a b : Nat} (h : a ≤ b) => unitsBefore_spread hle h
  unfold operandOf at h ⊢
  dsimp only at h ⊢
  split at h
  · rw [if_pos ‹_›]
    split at h
    · rename_i t _
      rw [getD_startsFrom] at h ⊢
      rw [← hle.length_eq]
      refine distance_mono ?_ ?_ ?_ h
      · split
        · simpa [unitsBefore] using hspread (Nat.zero_le t)
        · exact Nat.le_refl 0
      · rw [hfinish, hfinish']
        split
        · intro hback
          exact ⟨hmono'.mpr (hmono.mp hback), hspread (hmono.mp hback)⟩
        · have := hspread (Nat.zero_le (i + 1))
          simp only [unitsBefore, List.take_zero] at this ⊢
          omega
      · rw [hfinish, hfinish']
        split
        · intro hfore
          exact ⟨hmono'.mpr (hmono.mp hfore), hspread (hmono.mp hfore)⟩
        · have := hmono.mpr (Nat.succ_le_succ (Nat.zero_le i))
          omega
    · cases h
  · exact ⟨_, by rw [if_neg ‹_›], Nat.le_of_eq (Except.ok.inj h).symm⟩

theorem operandsFrom_mono {starts starts' : Array Nat} : ∀ {runs : List Run}
    {places widths places' widths' operands : List Nat},
    places.length = runs.length → widths.length = runs.length →
    places'.length = runs.length → widths'.length = runs.length →
    (∀ (i : Nat) {r : Run} {start width start' width' operand : Nat},
      places[i]? = some start → widths[i]? = some width →
      places'[i]? = some start' → widths'[i]? = some width' →
      operandOf isa g owner starts r start width = .ok operand →
      ∃ operand', operandOf isa g owner starts' r start' width' = .ok operand' ∧ operand ≤ operand') →
    operandsFrom isa g owner starts runs places widths = .ok operands →
    ∃ operands', operandsFrom isa g owner starts' runs places' widths' = .ok operands' ∧
      List.Forall₂ (· ≤ ·) operands operands'
  | [], _, _, _, _, _, _, _, _, _, _, h => by
    rw [operandsFrom] at h
    · obtain rfl := Except.ok.inj h
      exact ⟨[], by rw [operandsFrom]; simp, .nil⟩
    · simp
  | r :: runs, start :: places, width :: widths, start' :: places', width' :: widths', operands,
      hp, hw, hp', hw', hstep, h => by
    simp only [operandsFrom, bind_eq_ok_iff, pure, Except.pure, Except.ok.injEq] at h
    obtain ⟨operand, hop, later, hlater, rfl⟩ := h
    obtain ⟨operand', hop', hle⟩ := hstep 0 rfl rfl rfl rfl hop
    obtain ⟨later', hlater', hles⟩ := operandsFrom_mono (Nat.succ.inj hp) (Nat.succ.inj hw)
      (Nat.succ.inj hp') (Nat.succ.inj hw') (fun i => hstep (i + 1)) hlater
    refine ⟨operand' :: later', ?_, .cons hle hles⟩
    simp only [operandsFrom, hop', hlater']
    rfl

/-- **No operand shrinks when runs widen**, and one that could be found still can. -/
theorem operandsFor_mono (hw : widths.length = runs.length) (hle : List.Forall₂ (· ≤ ·) widths other)
    (h : operandsFor isa g owner runs widths = .ok operands) :
    ∃ operands', operandsFor isa g owner runs other = .ok operands' ∧
      List.Forall₂ (· ≤ ·) operands operands' := by
  have hw' : other.length = runs.length := hle.length_eq.symm.trans hw
  refine operandsFrom_mono (by rw [length_startsFrom, hw]) hw (by rw [length_startsFrom, hw']) hw'
    (fun i {r start width start' width' operand} hstart hwidth hstart' hwidth' hop => ?_) h
  rw [getElem?_startsFrom 0 widths (List.getElem?_eq_some_iff.mp hwidth).1, Option.some.injEq,
    Nat.zero_add] at hstart
  rw [getElem?_startsFrom 0 other (List.getElem?_eq_some_iff.mp hwidth').1, Option.some.injEq,
    Nat.zero_add] at hstart'
  subst hstart hstart'
  exact operandOf_mono hle hwidth hwidth' hop

variable (isa g runs) in
/-- Widths with which code can be written: none takes away an extension unit that was laid
out, and each is enough for the operand that its instruction has when the code is laid out
with these widths. -/
structure Suffices (widths : List Nat) : Prop where
  reserved : List.Forall₂ (fun r width => r.reserved.length ≤ width) runs widths
  wide : ∃ operands, operandsFor isa g (owners runs) runs widths = .ok operands ∧
    List.Forall₂ (fun width operand => extraDigits operand ≤ width) widths operands

theorem forall₂_of_tooNarrow : ∀ {widths operands : List Nat}, operands.length = widths.length →
    tooNarrow widths operands = 0 →
    List.Forall₂ (fun width operand => extraDigits operand ≤ width) widths operands
  | [], [], _, _ => .nil
  | width :: widths, operand :: operands, hlen, h => by
    simp only [tooNarrow, List.zip_cons_cons, List.countP_cons, Nat.add_eq_zero_iff] at h
    exact .cons (by simpa using h.2) (forall₂_of_tooNarrow (Nat.succ.inj hlen) h.1)

theorem widen_le (hle : List.Forall₂ (· ≤ ·) widths other) {operands' : List Nat}
    (hops : List.Forall₂ (· ≤ ·) operands operands')
    (hwide : List.Forall₂ (fun width operand => extraDigits operand ≤ width) other operands') :
    List.Forall₂ (· ≤ ·) (widen widths operands) other := by
  induction hle generalizing operands operands' with
  | nil => exact .nil
  | cons hle _ ih =>
    cases hwide with
    | cons hfirst hwide =>
      cases hops with
      | cons hop hops =>
        exact .cons (Nat.max_le.mpr ⟨hle, Nat.le_trans (extraDigits_mono hop) hfirst⟩) (ih hops hwide)

/-- Each round begins below any widths that suffice. -/
theorem Suffices.widthsAt_le (h : Suffices isa g runs other) : ∀ {k : Nat} {widths : List Nat},
    widthsAt isa g runs k = some widths → List.Forall₂ (· ≤ ·) widths other
  | 0, widths, hk => by
    obtain rfl := Option.some.inj hk
    exact List.forall₂_map_left_iff.mpr h.reserved
  | k + 1, widths, hk => by
    obtain ⟨before, hbefore, hnext⟩ := Option.bind_eq_some_iff.mp hk
    obtain ⟨operands, hops, -, rfl⟩ := wider_eq_some_iff.mp hnext
    obtain ⟨operands', hops', hwide⟩ := h.wide
    have hle := h.widthsAt_le hbefore
    obtain ⟨operands'', hops'', hmono⟩ :=
      operandsFor_mono (widthsAt_spec hbefore).1.length_eq hle hops
    obtain rfl : operands'' = operands' := Except.ok.inj (hops''.symm.trans hops')
    exact widen_le hle hmono hwide

theorem exists_operandsFor_reserved : ∀ {k : Nat} {widths operands : List Nat},
    widthsAt isa g runs k = some widths → operandsFor isa g (owners runs) runs widths = .ok operands →
    ∃ operands', operandsFor isa g (owners runs) runs (runs.map (·.reserved.length)) = .ok operands'
  | 0, widths, operands, hk, hops => by
    obtain rfl := Option.some.inj hk
    exact ⟨operands, hops⟩
  | k + 1, widths, operands, hk, _ => by
    obtain ⟨before, hbefore, hnext⟩ := Option.bind_eq_some_iff.mp hk
    obtain ⟨operands', hops', -⟩ := wider_eq_some_iff.mp hnext
    exact exists_operandsFor_reserved hbefore hops'

/-- No extension unit can be spared: other widths for the runs, that take no extension unit
away that was laid out and are enough for the operands that the instructions have then, are
no smaller. -/
def Narrowest (isa : InstructionSet) (g : Graph) (placed : List Placed) : Prop :=
  ∀ width : Run → Nat, (∀ p ∈ placed, p.run.reserved.length ≤ width p.run) →
    (∀ other : List Placed, other.map (·.run) = placed.map (·.run) → Consecutive 0 other →
      (∀ p ∈ other, p.width = width p.run ∧ Asks isa g other p) →
        ∀ p ∈ other, extraDigits p.operand ≤ p.width) →
    ∀ p ∈ placed, p.width ≤ width p.run

/-- **Relaxation spares all extension units that it can.** -/
theorem narrowest_of_settle {s : Settled} (hnd : (runs.flatMap Run.nodes).Nodup)
    (h : settle isa g (owners runs) runs (3 * runs.length + 1) 1 (runs.map (·.reserved.length)) =
      .ok s) : Narrowest isa g (place 0 runs s.widths s.operands) := by
  obtain ⟨last, final, hlast, ⟨e, -, hsettle⟩ | ⟨operands, hops, -, hsettle⟩⟩ :=
    settle_reserved isa g runs
  · rw [hsettle] at h
    cases h
  · obtain rfl := Except.ok.inj (hsettle.symm.trans h)
    have hw := (widthsAt_spec hlast).1.length_eq
    have ho := (length_operandsFor hw hops).trans hw
    intro width hreserved hwide p hp
    rw [map_run_place 0 hw ho] at hwide
    have hreserved' : ∀ r ∈ runs, r.reserved.length ≤ width r := by
      rw [← map_run_place 0 hw ho]
      exact List.forall_mem_map.mpr hreserved
    have hreserved'' : List.Forall₂ (fun r width => r.reserved.length ≤ width) runs
        (runs.map width) := List.forall₂_map_right_iff.mpr (List.forall₂_same.mpr hreserved')
    -- the operands that there are with the other widths
    obtain ⟨operands₀, hops₀⟩ := exists_operandsFor_reserved hlast hops
    obtain ⟨other, hother, -⟩ := operandsFor_mono (List.length_map _)
      (List.forall₂_map_left_iff.mpr hreserved'') hops₀
    have hw' : (runs.map width).length = runs.length := List.length_map _
    obtain ⟨ho', hasks⟩ := (operandsFrom_eq_ok_iff 0 hw').mp hother
    have hfits : ∀ p ∈ place 0 runs (runs.map width) other, extraDigits p.operand ≤ p.width := by
      refine hwide _ (map_run_place 0 hw' ho') (consecutive_place ..) fun p hp => ⟨?_, ?_⟩
      · obtain ⟨i, hi, hwidth, -⟩ := getElem?_of_mem_place hw' ho' hp
        rw [List.getElem?_map, hi] at hwidth
        exact (Option.some.inj hwidth).symm
      · exact (operandOf_eq_ok_iff hnd hw' ho').mp (hasks p hp)
    have hsuffices : Suffices isa g runs (runs.map width) := ⟨hreserved'', other, hother,
      forall₂_of_tooNarrow (ho'.trans hw'.symm) ((tooNarrow_eq_zero_iff 0 hw' ho').mpr hfits)⟩
    have hle := List.forall₂_map_right_iff.mp (hsuffices.widthsAt_le hlast)
    obtain ⟨i, hi, hwidth, -⟩ := getElem?_of_mem_place hw ho hp
    obtain ⟨hlt, hi⟩ := List.getElem?_eq_some_iff.mp hi
    obtain ⟨hlt', hwidth⟩ := List.getElem?_eq_some_iff.mp hwidth
    have hget := (List.forall₂_iff_get.mp hle).2 i hlt' hlt
    simpa [hi, hwidth] using hget

variable (isa g) in
theorem length_words : ∀ (start : Nat) {runs : List Run} {widths operands : List Nat},
    List.Forall₂ (fun r width => r.reserved.length ≤ width) runs widths →
    operands.length = widths.length →
    ((place start runs widths operands).flatMap (wordsOf isa g)).length =
      (runs.flatMap Run.nodes).length + inserted runs widths
  | _, [], [], [], _, _ => rfl
  | start, r :: runs, width :: widths, operand :: operands, .cons hr hrest, hlen => by
    have ih := length_words (start + width + 1) hrest (Nat.succ.inj hlen)
    unfold inserted at ih ⊢
    rw [place, List.flatMap_cons, List.length_append, length_wordsOf, ih, List.flatMap_cons,
      List.length_append, List.zipWith_cons_cons, List.sum_cons, Run.nodes, List.length_append,
      List.length_singleton]
    dsimp only
    omega

/-- **Relaxation is minimal.** When it succeeds, the numbers of extension units in the code
suffice, and they are at most those of any other choice that does, run by run: no valid
code for the layout has fewer. Any choice that keeps what was laid out leads to operands. -/
theorem relax_least {g' : Graph} {r : Relaxed} (hlen : layout.length ≤ arguments.length)
    (h : relax isa g layout arguments = .ok (g', r)) :
    ∃ runs final operands, runsOf isa g layout arguments = .ok runs ∧
      operandsFor isa g (owners runs) runs final = .ok operands ∧
      r.words = (place 0 runs final operands).flatMap (wordsOf isa g) ∧
      r.inserted = inserted runs final ∧ Suffices isa g runs final ∧
      ∀ other, List.Forall₂ (fun r width => r.reserved.length ≤ width) runs other →
        (∃ operands', operandsFor isa g (owners runs) runs other = .ok operands') ∧
        (Suffices isa g runs other →
          List.Forall₂ (· ≤ ·) final other ∧ r.inserted ≤ inserted runs other) := by
  unfold relax at h
  cases hruns : runsOf isa g layout arguments with
  | error e => simp [hruns] at h
  | ok runs =>
    obtain ⟨last, final, hlast, ⟨e, -, hsettle⟩ | ⟨operands, hops, hwide, hsettle⟩⟩ :=
      settle_reserved isa g runs
    · simp [hruns, hsettle] at h
    · simp only [hruns, hsettle, Except.ok.injEq, Prod.mk.injEq] at h
      obtain ⟨-, rfl⟩ := h
      have hbounded := (widthsAt_spec hlast).1
      have ho := length_operandsFor hbounded.length_eq hops
      have hreserved : List.Forall₂ (fun r width => r.reserved.length ≤ width) runs final :=
        List.Forall₂.imp (fun _ _ h => h.1) hbounded
      have hinserted := length_words isa g 0 hreserved ho
      rw [(runsOf_spec hlen hruns).1] at hinserted
      have hsum : ((place 0 runs final operands).flatMap (wordsOf isa g)).length - layout.length =
          inserted runs final := by omega
      refine ⟨runs, final, operands, rfl, hops, rfl, hsum, ⟨hreserved, operands, hops, ?_⟩,
        fun other hother => ⟨?_, fun hsuff => ?_⟩⟩
      · exact forall₂_of_tooNarrow ho hwide
      · obtain ⟨operands', hops'⟩ := exists_operandsFor_reserved hlast hops
        obtain ⟨operands'', hops'', -⟩ := operandsFor_mono (List.length_map _)
          (List.forall₂_map_left_iff.mpr hother) hops'
        exact ⟨operands'', hops''⟩
      · have hle := hsuff.widthsAt_le hlast
        refine ⟨hle, ?_⟩
        rw [hsum]
        exact inserted_mono hle runs

/-- An operand of two digits takes an extension unit, which moves the jump behind it. -/
theorem relax_least_wide :
    let g : Graph := ⟨#[{ opcode := ⟨100⟩ }, { opcode := ⟨113⟩, branch := some 1 }]⟩
    let runs : List Run := [⟨[], 0, 256⟩, ⟨[], 1, 0⟩]
    ∃ g' r, [0, 1].length ≤ [256, 0].length ∧
      relax .python38 g [0, 1] [256, 0] = .ok (g', r) ∧ r.iterations = 2 ∧
      r.words = [⟨⟨144⟩, 1⟩, ⟨⟨100⟩, 0⟩, ⟨⟨113⟩, 4⟩] ∧ r.inserted = 1 ∧
      ∀ other, Suffices .python38 g runs other → r.inserted ≤ inserted runs other := by
  intro g runs
  have hload : (g.node 0).flags .python38 = { hasArgument := true } := by
    rw [Node.flags, InstructionSet.flags, InstructionSet.info_eq rfl]
    decide +kernel
  have hjump : (g.node 1).flags .python38 =
      { hasArgument := true, jumpAbsolute := true, unconditional := true } := by
    rw [Node.flags, InstructionSet.flags, InstructionSet.info_eq rfl]
    decide +kernel
  have hruns : runsOf .python38 g [0, 1] [256, 0] = .ok runs := by
    simp [runsOf, addToRuns, Node.isExtension, hload, hjump, runs]
  have howner : (owners runs)[(1 : Nat)]? = some 1 :=
    getElem?_owners (by decide) rfl List.mem_cons_self
  have hbranch : (g.node 1).branch = some 1 := rfl
  have hunit : InstructionSet.python38.jumpUnit.size = 1 := rfl
  have hops : ∀ width, operandsFor .python38 g (owners runs) runs [width, 0] =
      .ok [256, min ((width + 1) * 2) (UInt32.size - 1)] := by
    intro width
    simp [operandsFor, operandsFrom, runs, operandOf, Node.isJump, Flags.isJump, hload, hjump, hbranch,
      howner, distance, startsFrom, hunit, pure, Except.pure]
    rfl
  have hlast : settle .python38 g (owners runs) runs 6 2 [1, 0] = .ok ⟨[1, 0], [256, 4], 2⟩ := by
    unfold settle
    rw [hops]
    rfl
  have hsettle : settle .python38 g (owners runs) runs 7 1 [0, 0] = .ok ⟨[1, 0], [256, 4], 2⟩ := by
    unfold settle
    rw [hops]
    exact hlast
  have hsettle' : settle .python38 g (owners runs) runs (3 * runs.length + 1) 1
      (runs.map (·.reserved.length)) = .ok ⟨[1, 0], [256, 4], 2⟩ := hsettle
  have hwords : (place 0 runs [1, 0] [256, 4]).flatMap (wordsOf .python38 g) =
      [⟨⟨144⟩, 1⟩, ⟨⟨100⟩, 0⟩, ⟨⟨113⟩, 4⟩] := by decide +kernel
  have hrelax : relax .python38 g [0, 1] [256, 0] = .ok
      (bind g ((place 0 runs [1, 0] [256, 4]).flatMap offsetsOf),
        ⟨[⟨⟨144⟩, 1⟩, ⟨⟨100⟩, 0⟩, ⟨⟨113⟩, 4⟩],
          (place 0 runs [1, 0] [256, 4]).flatMap unitsOf, 2, 1⟩) := by
    simp only [relax, hruns, hsettle', hwords]
    rfl
  have hlen : [0, 1].length ≤ [256, 0].length := Nat.le_refl 2
  obtain ⟨runs', final, operands, hruns', -, -, -, -, hleast⟩ := relax_least hlen hrelax
  obtain rfl : runs' = runs := Except.ok.inj (hruns'.symm.trans hruns)
  exact ⟨_, _, hlen, hrelax, rfl, rfl, rfl, fun other h => ((hleast other h.reserved).2 h).2⟩

end Relaxation

end Wordcode
