/-
# What relaxation settles on

Relaxation groups a layout into runs and gives each a place in the code: its first
unit, its number of extension units and its operand (`Placed`). When it succeeds,
the runs stand one right after the other, hold the layout in its order, have at
least the extension units that were laid out, and each operand fits into its
extension units and is what the run asks for: the argument of an instruction, or
the distance of a jump to the first unit of the run of its target
(`Relaxation.Settles`).

Where something that each run contributes to the code stands follows from the
places alone: what `p` contributes begins at unit `p.start`.

Key definitions: `Relaxation.Shaped`, `Relaxation.Consecutive`,
`Relaxation.Settles`.
Key theorems: `Relaxation.runsOf_spec`, `Relaxation.getElem?_owners`,
`Relaxation.getElem?_flatMap`, `Relaxation.settle_spec`, `Relaxation.relax_spec`,
`Relaxation.relax_of_fits`.
-/
import Wordcode.Relaxation
import Wordcode.Proofs.Detours

namespace Wordcode

namespace Relaxation

variable {isa : InstructionSet} {g : Graph}

/-! ### Runs -/

section Runs

/-- Extension units and then one instruction. -/
structure Shaped (isa : InstructionSet) (g : Graph) (r : Run) : Prop where
  reserved : ∀ n ∈ r.reserved, (g.node n).isExtension isa = true
  instruction : (g.node r.instruction).isExtension isa = false

variable (isa g) in
/-- The runs hold the nodes in their order, but for stray extension units behind the
last. -/
theorem foldr_addToRuns : ∀ items : List (Nat × Nat),
    items.map (·.1) = (items.foldr (addToRuns isa g) ([], [])).2.flatMap Run.nodes ++
      (items.foldr (addToRuns isa g) ([], [])).1 ∧
    (∀ r ∈ (items.foldr (addToRuns isa g) ([], [])).2,
      Shaped isa g r ∧ (r.instruction, r.argument) ∈ items) ∧
    ∀ n ∈ (items.foldr (addToRuns isa g) ([], [])).1, (g.node n).isExtension isa = true
  | [] => ⟨rfl, by simp, by simp⟩
  | (n, argument) :: items => by
    obtain ⟨hnodes, hruns, hstray⟩ := foldr_addToRuns items
    rw [List.foldr_cons, List.map_cons]
    generalize items.foldr (addToRuns isa g) ([], []) = later at hnodes hruns hstray ⊢
    obtain ⟨stray, runs⟩ := later
    have hmem : ∀ r ∈ runs, Shaped isa g r ∧ (r.instruction, r.argument) ∈ (n, argument) :: items :=
      fun r hr => ⟨(hruns r hr).1, List.mem_cons_of_mem _ (hruns r hr).2⟩
    cases hext : (g.node n).isExtension isa with
    | false =>
      have hstep : addToRuns isa g (n, argument) (stray, runs) = (stray, ⟨[], n, argument⟩ :: runs) := by
        simp only [addToRuns, hext, Bool.false_eq_true, if_false]
      rw [hstep, hnodes]
      refine ⟨rfl, fun r hr => ?_, hstray⟩
      rcases List.mem_cons.mp hr with rfl | hr
      · exact ⟨⟨by simp, hext⟩, List.mem_cons_self⟩
      · exact hmem r hr
    | true =>
      cases runs with
      | nil =>
        have hstep : addToRuns isa g (n, argument) (stray, []) = (n :: stray, []) := by
          simp only [addToRuns, hext, if_true]
        rw [hstep, hnodes]
        refine ⟨rfl, by simp, fun m hm => ?_⟩
        rcases List.mem_cons.mp hm with rfl | hm
        · exact hext
        · exact hstray m hm
      | cons r runs =>
        have hstep : addToRuns isa g (n, argument) (stray, r :: runs) =
            (stray, { r with reserved := n :: r.reserved } :: runs) := by
          simp only [addToRuns, hext, if_true]
        rw [hstep, hnodes]
        refine ⟨rfl, fun r' hr => ?_, hstray⟩
        rcases List.mem_cons.mp hr with rfl | hr
        · obtain ⟨hshaped, hr⟩ := hmem r List.mem_cons_self
          refine ⟨⟨fun m hm => ?_, hshaped.instruction⟩, hr⟩
          rcases List.mem_cons.mp hm with rfl | hm
          · exact hext
          · exact hshaped.reserved m hm
        · exact hmem r' (List.mem_cons_of_mem _ hr)

variable {layout arguments : List Nat} {runs : List Run}

theorem runsOf_spec (hlen : layout.length ≤ arguments.length)
    (h : runsOf isa g layout arguments = .ok runs) : runs.flatMap Run.nodes = layout ∧
      ∀ r ∈ runs, Shaped isa g r ∧ (r.instruction, r.argument) ∈ layout.zip arguments := by
  obtain ⟨hnodes, hruns, -⟩ := foldr_addToRuns isa g (layout.zip arguments)
  unfold runsOf at h
  split at h
  · rename_i runs' heq
    obtain rfl := Except.ok.inj h
    rw [heq] at hnodes hruns
    rw [List.map_fst_zip hlen, List.append_nil] at hnodes
    exact ⟨hnodes.symm, hruns⟩
  · cases h

/-- No extension unit is stray if the last node is none. -/
theorem exists_runsOf (hlen : arguments.length = layout.length)
    (hlast : ∀ n, layout.getLast? = some n → (g.node n).isExtension isa = false) :
    ∃ runs, runsOf isa g layout arguments = .ok runs := by
  obtain ⟨hnodes, -, hstray⟩ := foldr_addToRuns isa g (layout.zip arguments)
  unfold runsOf
  split
  · exact ⟨_, rfl⟩
  · rename_i n stray runs heq
    rw [heq] at hnodes hstray
    rw [List.map_fst_zip (Nat.le_of_eq hlen.symm)] at hnodes
    obtain ⟨m, hm⟩ := Option.isSome_iff_exists.mp (List.getLast?_isSome.mpr (List.cons_ne_nil n stray))
    have hlay : layout.getLast? = some m := by
      rw [hnodes, List.getLast?_append, hm, Option.some_or]
    have htrue := hstray m (List.mem_of_getLast? hm)
    rw [hlast m hlay] at htrue
    cases htrue

end Runs

/-! ### Which run a node belongs to -/

section Owners

variable {runs : List Run} {n i : Nat} {r : Run}

theorem keys_owners (runs : List Run) :
    (runs.zipIdx.flatMap fun r => r.1.nodes.map (·, r.2)).map Prod.fst =
      runs.flatMap Run.nodes := by
  rw [List.map_flatMap]
  have hfst : ∀ r : Run × Nat, (r.1.nodes.map fun n => (n, r.2)).map Prod.fst = r.1.nodes := by
    intro r
    rw [List.map_map]
    exact List.map_id _
  simp only [hfst]
  rw [← List.flatMap_map Prod.fst Run.nodes, List.zipIdx_map_fst]

theorem getElem?_owners (hnd : (runs.flatMap Run.nodes).Nodup) (hr : runs[i]? = some r)
    (hn : n ∈ r.nodes) : (owners runs)[n]? = some i := by
  refine Std.HashMap.getElem?_ofList_of_mem (beq_self_eq_true n) ?_ ?_
  · rw [← keys_owners, List.nodup_iff_pairwise_ne, List.pairwise_map] at hnd
    exact hnd.imp fun hne => beq_false_of_ne hne
  · exact List.mem_flatMap.mpr ⟨(r, i), List.mem_zipIdx_iff_getElem?.mpr hr,
      List.mem_map.mpr ⟨n, hn, rfl⟩⟩

theorem mem_of_getElem?_owners (hnd : (runs.flatMap Run.nodes).Nodup)
    (h : (owners runs)[n]? = some i) : ∃ r, runs[i]? = some r ∧ n ∈ r.nodes := by
  by_cases hn : n ∈ runs.flatMap Run.nodes
  · obtain ⟨r, hr, hnr⟩ := List.mem_flatMap.mp hn
    obtain ⟨j, hj⟩ := List.mem_iff_getElem?.mp hr
    have hsame := getElem?_owners hnd hj hnr
    obtain rfl : j = i := by simpa [h] using hsame.symm
    exact ⟨r, hj, hnr⟩
  · have hnone : (owners runs)[n]? = none := by
      refine Std.HashMap.getElem?_ofList_of_contains_eq_false ?_
      rw [keys_owners, List.contains_eq_mem]
      exact decide_eq_false hn
    rw [hnone] at h
    cases h

end Owners

/-! ### Places -/

section Places

/-- The runs stand one right after the other, from unit `start` on. -/
def Consecutive : (start : Nat) → List Placed → Prop
  | _, [] => True
  | start, p :: rest => p.start = start ∧ Consecutive (start + p.width + 1) rest

theorem consecutive_place : ∀ (start : Nat) (runs : List Run) (widths operands : List Nat),
    Consecutive start (place start runs widths operands)
  | _, [], _, _ => trivial
  | _, _ :: _, [], _ => trivial
  | _, _ :: _, _ :: _, [] => trivial
  | start, _ :: runs, width :: widths, _ :: operands =>
    ⟨rfl, consecutive_place (start + width + 1) runs widths operands⟩

variable {start : Nat} {placed : List Placed} {p q : Placed}

theorem Consecutive.le (h : Consecutive start placed) (hp : p ∈ placed) : start ≤ p.start := by
  induction placed generalizing start with
  | nil => cases hp
  | cons q placed ih =>
    obtain ⟨hq, hrest⟩ := h
    rcases List.mem_cons.mp hp with rfl | hp
    · exact Nat.le_of_eq hq.symm
    · have := ih hrest hp
      omega

theorem Consecutive.first_or_behind (h : Consecutive start placed) (hp : p ∈ placed) :
    p.start = start ∨ ∃ q ∈ placed, p.start = q.start + q.width + 1 := by
  induction placed generalizing start with
  | nil => cases hp
  | cons q placed ih =>
    obtain ⟨hq, hrest⟩ := h
    rcases List.mem_cons.mp hp with rfl | hp
    · exact Or.inl hq
    · right
      rcases ih hrest hp with heq | ⟨q', hq', heq⟩
      · exact ⟨q, List.mem_cons_self, by rw [heq, hq]⟩
      · exact ⟨q', List.mem_cons_of_mem _ hq', heq⟩

theorem Consecutive.behind {before after : List Placed} (h : Consecutive start placed)
    (heq : placed = before ++ p :: q :: after) : q.start = p.start + p.width + 1 := by
  subst heq
  induction before generalizing start with
  | nil =>
    obtain ⟨hp, hq, -⟩ := h
    rw [hq, hp]
  | cons _ _ ih => exact ih h.2

variable {β : Type} {f : Placed → List β}

/-- What each run contributes stands where the run does. -/
theorem getElem?_flatMap (h : Consecutive start placed)
    (hf : ∀ p ∈ placed, (f p).length = p.width + 1) (hp : p ∈ placed) {j : Nat}
    (hj : j ≤ p.width) : (placed.flatMap f)[p.start - start + j]? = (f p)[j]? := by
  induction placed generalizing start with
  | nil => cases hp
  | cons q placed ih =>
    obtain ⟨hq, hrest⟩ := h
    have hlen := hf q List.mem_cons_self
    rw [List.flatMap_cons]
    rcases List.mem_cons.mp hp with rfl | hp
    · rw [hq, Nat.sub_self, Nat.zero_add, List.getElem?_append_left (by omega)]
    · have hle := hrest.le hp
      rw [List.getElem?_append_right (by omega), hlen,
        show p.start - start + j - (q.width + 1) = p.start - (start + q.width + 1) + j by omega]
      exact ih hrest (fun p hp => hf p (List.mem_cons_of_mem _ hp)) hp

theorem exists_of_lt_length (h : Consecutive start placed)
    (hf : ∀ p ∈ placed, (f p).length = p.width + 1) {k : Nat}
    (hk : k < (placed.flatMap f).length) :
    ∃ p ∈ placed, ∃ j ≤ p.width, start + k = p.start + j := by
  induction placed generalizing start k with
  | nil => cases hk
  | cons q placed ih =>
    obtain ⟨hq, hrest⟩ := h
    have hlen := hf q List.mem_cons_self
    rw [List.flatMap_cons, List.length_append, hlen] at hk
    rcases Nat.lt_or_ge k (q.width + 1) with hlt | hge
    · exact ⟨q, List.mem_cons_self, k, Nat.le_of_lt_succ hlt, by rw [hq]⟩
    · obtain ⟨p, hp, j, hj, heq⟩ := ih hrest (fun p hp => hf p (List.mem_cons_of_mem _ hp))
        (k := k - (q.width + 1)) (by omega)
      exact ⟨p, List.mem_cons_of_mem _ hp, j, hj, by omega⟩

theorem lt_length_of_mem (h : Consecutive start placed)
    (hf : ∀ p ∈ placed, (f p).length = p.width + 1) (hp : p ∈ placed) :
    p.start - start + p.width < (placed.flatMap f).length := by
  have hat := getElem?_flatMap h hf hp (Nat.le_refl p.width)
  rw [List.getElem?_eq_getElem (i := p.width) (by rw [hf p hp]; omega)] at hat
  exact (List.getElem?_eq_some_iff.mp hat).1

theorem Consecutive.eq_of_unit (h : Consecutive start placed) (hp : p ∈ placed) (hq : q ∈ placed)
    {i j : Nat} (hi : i ≤ p.width) (hj : j ≤ q.width) (heq : p.start + i = q.start + j) : p = q := by
  have hf : ∀ p ∈ placed, (List.replicate (p.width + 1) p).length = p.width + 1 :=
    fun _ _ => List.length_replicate
  have hat := getElem?_flatMap h hf hp hi
  have hat' := getElem?_flatMap h hf hq hj
  have hle := h.le hp
  have hle' := h.le hq
  have hplace : p.start - start + i = q.start - start + j := by omega
  rw [List.getElem?_replicate_of_lt (Nat.lt_succ_of_le hi), hplace, hat',
    List.getElem?_replicate_of_lt (Nat.lt_succ_of_le hj)] at hat
  exact (Option.some.inj hat).symm

end Places

/-! ### Operands and widths -/

section Operands

variable {owner : Std.HashMap NodeId Nat} {starts : Array Nat}

@[simp] theorem length_startsFrom : ∀ (start : Nat) (widths : List Nat),
    (startsFrom start widths).length = widths.length
  | _, [] => rfl
  | start, width :: widths => by
    rw [startsFrom, List.length_cons, length_startsFrom, List.length_cons]

/-- The places of runs, all lists being as long as the runs. -/
theorem getElem?_place : ∀ (start : Nat) {runs : List Run} {widths operands : List Nat},
    widths.length = runs.length → operands.length = runs.length → ∀ {i : Nat} {r : Run},
    runs[i]? = some r → ∃ p, (place start runs widths operands)[i]? = some p ∧ p.run = r ∧
      widths[i]? = some p.width ∧ operands[i]? = some p.operand ∧
      (startsFrom start widths)[i]? = some p.start
  | _, [], _, _, _, _, _, _, h => by cases h
  | _, _ :: _, [], _, hw, _, _, _, _ => by cases hw
  | _, _ :: _, _ :: _, [], _, ho, _, _, _ => by cases ho
  | start, run :: runs, width :: widths, operand :: operands, hw, ho, i, r, h => by
    cases i with
    | zero =>
      obtain rfl : run = r := by simpa using h
      exact ⟨⟨run, start, width, operand⟩, rfl, rfl, rfl, rfl, rfl⟩
    | succ i =>
      exact getElem?_place (start + width + 1) (Nat.succ.inj hw) (Nat.succ.inj ho) h

theorem map_run_place : ∀ (start : Nat) {runs : List Run} {widths operands : List Nat},
    widths.length = runs.length → operands.length = runs.length →
    (place start runs widths operands).map (·.run) = runs
  | _, [], _, _, _, _ => rfl
  | _, _ :: _, [], _, hw, _ => by cases hw
  | _, _ :: _, _ :: _, [], _, ho => by cases ho
  | start, run :: runs, width :: widths, operand :: operands, hw, ho => by
    rw [place, List.map_cons, map_run_place (start + width + 1) (Nat.succ.inj hw) (Nat.succ.inj ho)]

theorem getElem?_of_mem_place {runs : List Run} {widths operands : List Nat}
    (hw : widths.length = runs.length) (ho : operands.length = runs.length) {p : Placed}
    (hp : p ∈ place 0 runs widths operands) :
    ∃ i : Nat, runs[i]? = some p.run ∧ widths[i]? = some p.width ∧ operands[i]? = some p.operand := by
  obtain ⟨i, hi⟩ := List.mem_iff_getElem?.mp hp
  have hrun : runs[i]? = some p.run := by
    rw [← map_run_place 0 hw ho, List.getElem?_map, hi]
    rfl
  obtain ⟨q, hq, -, hwidth, hoperand, -⟩ := getElem?_place 0 hw ho hrun
  obtain rfl : p = q := Option.some.inj (hi.symm.trans hq)
  exact ⟨i, hrun, hwidth, hoperand⟩

/-- The operands of the runs, each by itself. -/
theorem operandsFrom_eq_ok_iff : ∀ (start : Nat) {runs : List Run} {widths operands : List Nat},
    widths.length = runs.length →
    (operandsFrom isa g owner starts runs (startsFrom start widths) widths = .ok operands ↔
      operands.length = runs.length ∧ ∀ p ∈ place start runs widths operands,
        operandOf isa g owner starts p.run p.start p.width = .ok p.operand)
  | _, [], widths, operands, _ => by
    rw [operandsFrom, Except.ok.injEq, List.length_nil, List.length_eq_zero_iff]
    · constructor
      · rintro rfl
        exact ⟨rfl, by simp [place]⟩
      · rintro ⟨h, -⟩
        exact h.symm
    · simp
  | _, _ :: _, [], _, hw => by cases hw
  | start, run :: runs, width :: widths, operands, hw => by
    rw [startsFrom, operandsFrom]
    simp only [bind_eq_ok_iff, pure, Except.pure, Except.ok.injEq]
    constructor
    · rintro ⟨operand, hop, later, hl, rfl⟩
      obtain ⟨hlen, hall⟩ := (operandsFrom_eq_ok_iff (start + width + 1) (Nat.succ.inj hw)).mp hl
      refine ⟨by rw [List.length_cons, hlen, List.length_cons], ?_⟩
      rw [place, List.forall_mem_cons]
      exact ⟨hop, hall⟩
    · rintro ⟨hlen, hall⟩
      obtain ⟨operand, later, rfl⟩ := List.exists_cons_of_length_eq_add_one hlen
      rw [place, List.forall_mem_cons] at hall
      exact ⟨operand, hall.1, later,
        (operandsFrom_eq_ok_iff (start + width + 1) (Nat.succ.inj hw)).mpr ⟨Nat.succ.inj hlen, hall.2⟩, rfl⟩

theorem tooNarrow_eq_zero_iff : ∀ (start : Nat) {runs : List Run} {widths operands : List Nat},
    widths.length = runs.length → operands.length = runs.length →
    (tooNarrow widths operands = 0 ↔
      ∀ p ∈ place start runs widths operands, extraDigits p.operand ≤ p.width)
  | _, [], widths, operands, hw, ho => by
    obtain rfl := List.length_eq_zero_iff.mp hw
    simp [tooNarrow, place]
  | _, _ :: _, [], _, hw, _ => by cases hw
  | _, _ :: _, _ :: _, [], _, ho => by cases ho
  | start, run :: runs, width :: widths, operand :: operands, hw, ho => by
    have ih := tooNarrow_eq_zero_iff (start + width + 1) (Nat.succ.inj hw) (Nat.succ.inj ho)
    rw [place, List.forall_mem_cons, ← ih]
    simp only [tooNarrow, List.zip_cons_cons, List.countP_cons, Nat.add_eq_zero_iff]
    simp [and_comm]

theorem le_widen {least : List Nat} : ∀ {widths operands : List Nat},
    List.Forall₂ (· ≤ ·) least widths → operands.length = widths.length →
    List.Forall₂ (· ≤ ·) least (widen widths operands)
  | [], [], h, _ => h
  | _ :: _, _ :: _, .cons h hrest, hlen =>
    .cons (Nat.le_trans h (Nat.le_max_left _ _)) (le_widen hrest (Nat.succ.inj hlen))

/-- Rounds of widening end with operands that fit. -/
theorem settle_spec {runs : List Run} {least : List Nat} (hleast : least.length = runs.length) :
    ∀ (left iteration : Nat) (widths : List Nat) {s : Settled},
    settle isa g owner runs left iteration widths = .ok s → List.Forall₂ (· ≤ ·) least widths →
    List.Forall₂ (· ≤ ·) least s.widths ∧
      operandsFor isa g owner runs s.widths = .ok s.operands ∧ tooNarrow s.widths s.operands = 0
  | left, iteration, widths, s, h, hle => by
    have hw : widths.length = runs.length := hle.length_eq.symm.trans hleast
    unfold settle at h
    cases hops : operandsFor isa g owner runs widths with
    | error e => simp [hops] at h
    | ok operands =>
      simp only [hops] at h
      obtain ⟨hlen, -⟩ := (operandsFrom_eq_ok_iff 0 hw).mp hops
      split at h
      · rename_i hnarrow
        obtain rfl := Except.ok.inj h
        exact ⟨hle, hops, hnarrow⟩
      · cases h
      · rename_i left _
        exact settle_spec hleast left (iteration + 1) _ h (le_widen hle (hlen.trans hw.symm))

end Operands

/-! ### What relaxation gives -/

section Whole

/-- The operand of a run among others: the argument of its instruction, or the distance to
the run of its target. -/
def Asks (isa : InstructionSet) (g : Graph) (placed : List Placed) (p : Placed) : Prop :=
  ((g.node p.run.instruction).isJump isa = false → p.operand = p.run.argument) ∧
    ((g.node p.run.instruction).isJump isa = true → ∃ t, ∃ q ∈ placed,
      (g.node p.run.instruction).branch = some t ∧ t ∈ q.run.nodes ∧
        distance isa ((g.node p.run.instruction).flags isa) (g.node p.run.instruction).opcode
          p.start p.width q.start = .ok p.operand)

/-- What relaxation of a layout settles on. -/
structure Settles (isa : InstructionSet) (g : Graph) (layout arguments : List Nat)
    (placed : List Placed) : Prop where
  shaped : ∀ p ∈ placed, Shaped isa g p.run
  nodes_eq : (placed.flatMap fun p => p.run.nodes) = layout
  argument : ∀ p ∈ placed, (p.run.instruction, p.run.argument) ∈ layout.zip arguments
  consecutive : Consecutive 0 placed
  reserved : ∀ p ∈ placed, p.run.reserved.length ≤ p.width
  wide : ∀ p ∈ placed, extraDigits p.operand ≤ p.width
  asks : ∀ p ∈ placed, Asks isa g placed p

variable {runs : List Run} {widths operands layout arguments : List Nat}

theorem operandOf_eq_ok_iff (hnd : (runs.flatMap Run.nodes).Nodup)
    (hw : widths.length = runs.length) (ho : operands.length = runs.length) {p : Placed} :
    operandOf isa g (owners runs) (startsFrom 0 widths).toArray p.run p.start p.width =
      .ok p.operand ↔ Asks isa g (place 0 runs widths operands) p := by
  -- the owner of a node tells where its run starts
  have hplaced : ∀ {t : Nat} {q : Placed}, q ∈ place 0 runs widths operands → t ∈ q.run.nodes →
      ∃ i, (owners runs)[t]? = some i ∧ (startsFrom 0 widths).toArray.getD i 0 = q.start := by
    intro t q hq ht
    obtain ⟨i, hi⟩ := List.mem_iff_getElem?.mp hq
    have hrun : runs[i]? = some q.run := by
      rw [← map_run_place 0 hw ho, List.getElem?_map, hi]
      rfl
    obtain ⟨q', hq', -, -, -, hstart⟩ := getElem?_place 0 hw ho hrun
    obtain rfl : q = q' := by simpa [hi] using hq'
    refine ⟨i, getElem?_owners hnd hrun ht, ?_⟩
    rw [Array.getD_eq_getD_getElem?, List.getElem?_toArray, hstart]
    rfl
  unfold Asks
  simp only [operandOf]
  cases hj : (g.node p.run.instruction).isJump isa with
  | false =>
    simp only [Bool.false_eq_true, if_false, Except.ok.injEq, forall_const,
      false_implies, and_true]
    exact eq_comm
  | true =>
    simp only [if_true, reduceCtorEq, false_implies, true_and, forall_const]
    constructor
    · intro h
      cases hb : (g.node p.run.instruction).branch with
      | none => simp [hb] at h
      | some t =>
        cases hown : (owners runs)[t]? with
        | none => simp [hb, hown] at h
        | some i =>
          obtain ⟨r, hr, ht⟩ := mem_of_getElem?_owners hnd hown
          obtain ⟨q, hq, rfl, -, -, -⟩ := getElem?_place 0 hw ho hr
          have hqm := List.mem_of_getElem? hq
          obtain ⟨i', hi', hstart⟩ := hplaced hqm ht
          obtain rfl : i = i' := by simpa [hown] using hi'
          refine ⟨t, q, hqm, rfl, ht, ?_⟩
          simpa [hb, hown, hstart] using h
    · rintro ⟨t, q, hq, hb, ht, hd⟩
      obtain ⟨i, hown, hstart⟩ := hplaced hq ht
      simpa [hb, hown, hstart] using hd

/-- **What relaxation gives:** the places of the runs, with the widths and operands that
widening ends with. -/
theorem relax_spec {g' : Graph} {r : Relaxed} (hnd : layout.Nodup)
    (hlen : arguments.length = layout.length) (h : relax isa g layout arguments = .ok (g', r)) :
    ∃ runs s, (runs.flatMap Run.nodes).Nodup ∧
      settle isa g (owners runs) runs (3 * runs.length + 1) 1 (runs.map (·.reserved.length)) = .ok s ∧
      Settles isa g layout arguments (place 0 runs s.widths s.operands) ∧
      r.words = (place 0 runs s.widths s.operands).flatMap (wordsOf isa g) ∧
      r.units = (place 0 runs s.widths s.operands).flatMap unitsOf ∧
      g' = bind g ((place 0 runs s.widths s.operands).flatMap offsetsOf) := by
  unfold relax at h
  cases hruns : runsOf isa g layout arguments with
  | error e => simp [hruns] at h
  | ok runs =>
    obtain ⟨hnodes, hshaped⟩ := runsOf_spec hlen.ge hruns
    simp only [hruns] at h
    cases hs : settle isa g (owners runs) runs (3 * runs.length + 1) 1
        (runs.map (·.reserved.length)) with
    | error e => simp [hs] at h
    | ok s =>
      simp only [hs, Except.ok.injEq, Prod.mk.injEq] at h
      obtain ⟨rfl, rfl⟩ := h
      obtain ⟨hleast, hops, hnarrow⟩ := settle_spec (List.length_map _) _ _ _ hs
        (List.forall₂_same.mpr fun _ _ => Nat.le_refl _)
      have hw : s.widths.length = runs.length := by
        rw [← hleast.length_eq, List.length_map]
      obtain ⟨ho, hops⟩ := (operandsFrom_eq_ok_iff 0 hw).mp hops
      have hmap := map_run_place 0 hw ho
      have hrun : ∀ p ∈ place 0 runs s.widths s.operands, p.run ∈ runs := fun p hp => by
        rw [← hmap]
        exact List.mem_map_of_mem hp
      refine ⟨runs, s, hnodes ▸ hnd, hs, ⟨fun p hp => (hshaped _ (hrun p hp)).1, ?_,
        fun p hp => (hshaped _ (hrun p hp)).2, consecutive_place .., fun p hp => ?_,
        (tooNarrow_eq_zero_iff 0 hw ho).mp hnarrow, fun p hp => ?_⟩, rfl, rfl, rfl⟩
      · rw [← hnodes, ← hmap, List.flatMap_map, hmap]
      · obtain ⟨i, hri, hwidth, -⟩ := getElem?_of_mem_place hw ho hp
        obtain ⟨hlt, hwidth⟩ := List.getElem?_eq_some_iff.mp hwidth
        obtain ⟨hlt', hri⟩ := List.getElem?_eq_some_iff.mp hri
        have hle := (List.forall₂_iff_get.mp hleast).2 i (by simpa using hlt') hlt
        simpa [hri, hwidth] using hle
      · exact (operandOf_eq_ok_iff (hnodes ▸ hnd) hw ho).mp (hops p hp)

/-- **If the operands fit into the extension units that were laid out, relaxation ends at
once.** -/
theorem relax_of_fits (hnd : layout.Nodup) (hlen : arguments.length = layout.length)
    (hruns : runsOf isa g layout arguments = .ok runs) (ho : operands.length = runs.length)
    (hfits : ∀ p ∈ place 0 runs (runs.map (·.reserved.length)) operands,
      extraDigits p.operand ≤ p.width ∧
        Asks isa g (place 0 runs (runs.map (·.reserved.length)) operands) p) :
    let placed := place 0 runs (runs.map (·.reserved.length)) operands
    relax isa g layout arguments = .ok (bind g (placed.flatMap offsetsOf),
      { words := placed.flatMap (wordsOf isa g), units := placed.flatMap unitsOf, iterations := 1
        inserted := (placed.flatMap (wordsOf isa g)).length - layout.length }) := by
  intro placed
  have hw : (runs.map (·.reserved.length)).length = runs.length := List.length_map _
  obtain ⟨hnodes, -⟩ := runsOf_spec hlen.ge hruns
  have hops : operandsFor isa g (owners runs) runs (runs.map (·.reserved.length)) = .ok operands :=
    (operandsFrom_eq_ok_iff 0 hw).mpr
      ⟨ho, fun p hp => (operandOf_eq_ok_iff (hnodes ▸ hnd) hw ho).mpr (hfits p hp).2⟩
  have hnarrow : tooNarrow (runs.map (·.reserved.length)) operands = 0 :=
    (tooNarrow_eq_zero_iff 0 hw ho).mpr fun p hp => (hfits p hp).1
  have hsettle : settle isa g (owners runs) runs (3 * runs.length + 1) 1
      (runs.map (·.reserved.length)) = .ok ⟨runs.map (·.reserved.length), operands, 1⟩ := by
    unfold settle
    simp only [hops, hnarrow]
  simp only [relax, hruns, hsettle]
  rfl

end Whole

end Relaxation

end Wordcode
