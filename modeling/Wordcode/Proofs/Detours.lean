/-
# What the repairs of a layout do

Two nodes of a sequence without repetitions stand next to each other when they
form an infix, and one before the other when they form a sublist. A gap is a
node whose successor in the graph is not its neighbour, and a jump goes the wrong
way when it does not stand before its target, or does although it counts backwards.

Both repairs are instances of `Layout.detours`, and what that does to a graph is
said once (`Layout.Detours`): nodes without a detour stay as they are, the edge
of one with a detour leads to a new jump to where it led. Putting jumps behind
nodes takes no pair apart that was in order, and putting jumps at the end takes
none apart at all.

Key definitions: `Layout.Detours`, `Layout.GapsClosed`, `Layout.Trampolines`.
Key theorems: `Layout.detours_spec`, `Layout.closeGaps_spec`,
`Layout.addTrampolines_spec`.
-/
import Mathlib.Data.List.Infix
import Mathlib.Data.List.Nodup
import Mathlib.Data.List.ReduceOption
import Mathlib.Data.List.Perm.Basic
import Wordcode.Layout
import Wordcode.Proofs.SameCode

namespace Wordcode

namespace Layout

/-! ### Neighbours and order in a sequence -/

section Pairs

open List

variable {α : Type} {l : List α} {a b : α}

theorem pair_infix_iff : [a, b] <:+: l ↔ ∃ i, l[i]? = some a ∧ l[i + 1]? = some b := by
  constructor
  · rintro ⟨s, t, rfl⟩
    exact ⟨s.length, by simp, by simp⟩
  · rintro ⟨i, ha, hb⟩
    obtain ⟨hi, rfl⟩ := List.getElem?_eq_some_iff.mp ha
    obtain ⟨hj, rfl⟩ := List.getElem?_eq_some_iff.mp hb
    refine ⟨l.take i, l.drop (i + 2), ?_⟩
    rw [List.append_assoc, List.cons_append, List.cons_append, List.nil_append,
      ← List.drop_eq_getElem_cons hj, ← List.drop_eq_getElem_cons hi, List.take_append_drop]

theorem pair_infix_append (s t : List α) : [a, b] <:+: s ++ a :: b :: t := ⟨s, t, by simp⟩

theorem pair_sublist_iff : [a, b] <+ l ↔ ∃ i j : Nat, i < j ∧ l[i]? = some a ∧ l[j]? = some b := by
  constructor
  · intro h
    induction l with
    | nil => cases h
    | cons c l ih =>
      cases h with
      | cons _ h =>
        obtain ⟨i, j, hij, ha, hb⟩ := ih h
        exact ⟨i + 1, j + 1, by omega, by simpa using ha, by simpa using hb⟩
      | cons_cons _ h =>
        obtain ⟨j, hj, hb⟩ := List.mem_iff_getElem.mp (List.singleton_sublist.mp h)
        exact ⟨0, j + 1, by omega, rfl, by simp [List.getElem?_eq_getElem hj, hb]⟩
  · rintro ⟨i, j, hij, ha, hb⟩
    obtain ⟨hi, rfl⟩ := List.getElem?_eq_some_iff.mp ha
    have hmem : b ∈ l.drop (i + 1) := by
      refine List.mem_of_getElem? (i := j - (i + 1)) ?_
      rw [List.getElem?_drop, show i + 1 + (j - (i + 1)) = j by omega, hb]
    calc [l[i], b] <+ l[i] :: l.drop (i + 1) := (List.singleton_sublist.mpr hmem).cons_cons _
      _ = l.drop i := (List.drop_eq_getElem_cons hi).symm
      _ <+ l := List.drop_sublist i l

theorem getElem?_inj_of_nodup (hl : l.Nodup) {i j : Nat} (hi : l[i]? = some a)
    (hj : l[j]? = some a) : i = j := by
  obtain ⟨hi', -⟩ := List.getElem?_eq_some_iff.mp hi
  exact (List.getElem?_inj hi' hl).mp (hi.trans hj.symm)

theorem pair_sublist_trans {c : α} (hl : l.Nodup) (hab : [a, b] <+ l) (hbc : [b, c] <+ l) :
    [a, c] <+ l := by
  obtain ⟨i, j, hij, ha, hb⟩ := pair_sublist_iff.mp hab
  obtain ⟨j', k, hjk, hb', hc⟩ := pair_sublist_iff.mp hbc
  obtain rfl := getElem?_inj_of_nodup hl hb hb'
  exact pair_sublist_iff.mpr ⟨i, k, Nat.lt_trans hij hjk, ha, hc⟩

theorem not_pair_infix_getLast (hl : l.Nodup) (ha : l.getLast? = some a) : ¬ [a, b] <:+: l := by
  rw [pair_infix_iff]
  rintro ⟨i, hi, hb⟩
  rw [List.getLast?_eq_getElem?] at ha
  have heq := getElem?_inj_of_nodup hl hi ha
  obtain ⟨hlt, -⟩ := List.getElem?_eq_some_iff.mp hb
  omega

theorem head?_of_pair_infix {s t : List α} (hl : (s ++ a :: t).Nodup)
    (h : [a, b] <:+: s ++ a :: t) : t.head? = some b := by
  obtain ⟨i, ha, hb⟩ := pair_infix_iff.mp h
  have hat : (s ++ a :: t)[s.length]? = some a := by simp
  obtain rfl := getElem?_inj_of_nodup hl ha hat
  rw [List.getElem?_append_right (Nat.le_add_right _ 1), Nat.add_sub_cancel_left] at hb
  rw [List.head?_eq_getElem?]
  exact hb

end Pairs

/-! ### Places -/

section Places

variable {nodes : List NodeId} (hn : nodes.Nodup)
include hn

/-- Numbers that are given out one by one are found again. -/
theorem getElem?_ofList_zipIdx {n : NodeId} {i : Nat} (start : Nat) (h : nodes[i]? = some n) :
    (Std.HashMap.ofList (nodes.zipIdx start))[n]? = some (start + i) := by
  refine Std.HashMap.getElem?_ofList_of_mem (beq_self_eq_true n) ?_ ?_
  · have hmap : ((nodes.zipIdx start).map Prod.fst).Nodup := by rwa [List.zipIdx_map_fst]
    rw [List.nodup_iff_pairwise_ne, List.pairwise_map] at hmap
    exact hmap.imp fun hne => beq_false_of_ne hne
  · exact List.mk_add_mem_zipIdx_iff_getElem?.mpr h

theorem getElem?_places {n : NodeId} {i : Nat} (h : nodes[i]? = some n) :
    (places nodes)[n]? = some i := by
  rw [places, getElem?_ofList_zipIdx hn 0 h, Nat.zero_add]

theorem getD_places {n : NodeId} {i : Nat} (h : nodes[i]? = some n) :
    (places nodes).getD n 0 = i := by
  rw [Std.HashMap.getD_eq_getD_getElem?, getElem?_places hn h]
  rfl

end Places

/-! ### Edges led over new jumps -/

/-- What `detours` does to one node: nothing, or its edge is led to a new jump to
where it led. -/
def Detoured (edge : Edge) (g g' : Graph) (n : NodeId) :
    Option (NodeId × Opcode) → Option NodeId → Prop
  | none, jump => jump = none ∧ g'.node n = g.node n
  | some (target, opcode), jump => ∃ j, jump = some j ∧
      g'.node n = (g.node n).withEdge edge (some j) ∧
      g'.node j = jumpNode opcode target (g.node n).position

/-- What `detours` does to a graph: `jumps` has the new jump of each node. -/
structure Detours (edge : Edge) (detour? : Graph → NodeId → Nat → Option (NodeId × Opcode))
    (g g' : Graph) (nodes : List Nat) (i : Nat) (jumps : List (Option Nat)) : Prop where
  length_eq : jumps.length = nodes.length
  /-- The new jumps are the nodes added behind those that were there. -/
  added : ∃ count, g'.size = g.size + count ∧ jumps.reduceOption = List.range' g.size count
  frame : ∀ m < g.size, m ∉ nodes → g'.node m = g.node m
  detoured : ∀ k n, nodes[k]? = some n → ∃ jump, jumps[k]? = some jump ∧
    Detoured edge g g' n (detour? g n (i + k)) jump

theorem push_append_toArray {α : Type} (xs : Array α) (a : α) (l : List α) :
    xs.push a ++ l.toArray = xs ++ (a :: l).toArray := by
  apply Array.ext'
  simp

variable {edge : Edge} {detour? : Graph → NodeId → Nat → Option (NodeId × Opcode)}

theorem node_alloc_redirect {g : Graph} {n m : Nat} (node : Node) (hn : n < g.size)
    (target : Option NodeId) : ((g.alloc node).redirect n edge target).node m =
      if m = n then (g.node n).withEdge edge target
      else if m = g.size then node else g.node m := by
  have hne : n ≠ g.size := by omega
  simp only [Graph.node_redirect, Graph.size_alloc, Graph.node_alloc]
  by_cases hm : m = n
  · subst hm
    have hlt : m < g.size + 1 := by omega
    simp [hne, hlt]
  · simp [hm, Ne.symm hm]

namespace Detours

variable {g g' : Graph} {nodes : List Nat} {i n : Nat} {jumps : List (Option Nat)}

/-- A node in front that stays as it is. -/
theorem cons_none (h : Detours edge detour? g g' nodes (i + 1) jumps)
    (hd : detour? g n i = none) (hn : n ∉ nodes) (hlt : n < g.size) :
    Detours edge detour? g g' (n :: nodes) i (none :: jumps) where
  length_eq := by rw [List.length_cons, List.length_cons, h.length_eq]
  added := by simpa using h.added
  frame := fun m hm hmem => h.frame m hm fun hin => hmem (List.mem_cons_of_mem _ hin)
  detoured := by
    rintro (_ | k) m hk
    · obtain rfl : n = m := by simpa using hk
      refine ⟨none, rfl, ?_⟩
      rw [Nat.add_zero, hd]
      exact ⟨rfl, h.frame n hlt hn⟩
    · obtain ⟨jump, hj, hdet⟩ := h.detoured k m (by simpa using hk)
      have hplace : i + (k + 1) = i + 1 + k := by omega
      refine ⟨jump, by simpa using hj, ?_⟩
      rwa [hplace]

/-- A node in front whose edge is led over a new jump. -/
theorem cons_some {target : NodeId} {opcode : Opcode}
    (hlocal : ∀ g h n i, h.node n = g.node n → detour? h n i = detour? g n i)
    (h : Detours edge detour? ((g.alloc (jumpNode opcode target (g.node n).position)).redirect n
      edge (some g.size)) g' nodes (i + 1) jumps)
    (hd : detour? g n i = some (target, opcode)) (hn : n ∉ nodes) (hlt : n < g.size)
    (hrest : ∀ m ∈ nodes, m < g.size) :
    Detours edge detour? g g' (n :: nodes) i (some g.size :: jumps) := by
  set g₁ := (g.alloc (jumpNode opcode target (g.node n).position)).redirect n edge
    (some g.size) with hg₁
  have hsize : g₁.size = g.size + 1 := by simp [hg₁]
  have hnode : ∀ m : Nat, g₁.node m = if m = n then (g.node n).withEdge edge (some g.size)
      else if m = g.size then jumpNode opcode target (g.node n).position else g.node m :=
    fun m => node_alloc_redirect _ hlt _
  have hkeep : ∀ m ∈ nodes, g₁.node m = g.node m := by
    intro m hm
    have hne : m ≠ n := fun heq => hn (heq ▸ hm)
    rw [hnode, if_neg hne, if_neg (Nat.ne_of_lt (hrest m hm))]
  have hnew : g.size ∉ nodes := fun hin => Nat.lt_irrefl _ (hrest _ hin)
  obtain ⟨count, hcount, hrange⟩ := h.added
  refine ⟨by rw [List.length_cons, List.length_cons, h.length_eq], ⟨count + 1, by omega, ?_⟩, ?_, ?_⟩
  · rw [List.reduceOption_cons_of_some, hrange, hsize, List.range'_succ]
  · intro m hm hmem
    have hmn : m ≠ n := fun heq => hmem (heq ▸ List.mem_cons_self)
    rw [h.frame m (by omega) fun hin => hmem (List.mem_cons_of_mem _ hin), hnode, if_neg hmn,
      if_neg (by omega)]
  · rintro (_ | k) m hk
    · obtain rfl : n = m := by simpa using hk
      refine ⟨some g.size, rfl, ?_⟩
      rw [Nat.add_zero, hd]
      refine ⟨g.size, rfl, ?_, ?_⟩
      · rw [h.frame n (by omega) hn, hnode, if_pos rfl]
      · rw [h.frame g.size (by omega) hnew, hnode, if_neg (by omega), if_pos rfl]
    · have hm : m ∈ nodes := List.mem_of_getElem? (by simpa using hk)
      have hplace : i + (k + 1) = i + 1 + k := by omega
      obtain ⟨jump, hj, hdet⟩ := h.detoured k m (by simpa using hk)
      refine ⟨jump, by simpa using hj, ?_⟩
      rw [hplace, ← hlocal g g₁ m _ (hkeep m hm)]
      unfold Detoured at hdet ⊢
      rwa [hkeep m hm] at hdet

variable {k : Nat}

/-- A node without a new jump was asked for none. -/
theorem of_none (h : Detours edge detour? g g' nodes i jumps) (hk : nodes[k]? = some n)
    (hj : jumps[k]? = some none) : detour? g n (i + k) = none ∧ g'.node n = g.node n := by
  obtain ⟨jump, hjump, hdet⟩ := h.detoured k n hk
  obtain rfl : none = jump := by simpa [hj] using hjump
  cases hd : detour? g n (i + k) with
  | none =>
    rw [hd] at hdet
    exact ⟨rfl, hdet.2⟩
  | some detour =>
    rw [hd] at hdet
    obtain ⟨j, hj', -⟩ := hdet
    cases hj'

/-- A node with a new jump was asked for it. -/
theorem of_some {j : Nat} (h : Detours edge detour? g g' nodes i jumps) (hk : nodes[k]? = some n)
    (hj : jumps[k]? = some (some j)) : ∃ target opcode, detour? g n (i + k) = some (target, opcode) ∧
      g'.node n = (g.node n).withEdge edge (some j) ∧
      g'.node j = jumpNode opcode target (g.node n).position := by
  obtain ⟨jump, hjump, hdet⟩ := h.detoured k n hk
  obtain rfl : some j = jump := by simpa [hj] using hjump
  cases hd : detour? g n (i + k) with
  | none =>
    rw [hd] at hdet
    cases hdet.1
  | some detour =>
    rw [hd] at hdet
    obtain ⟨j', hj', hnode, hjump⟩ := hdet
    obtain rfl : j = j' := by simpa using hj'
    exact ⟨detour.1, detour.2, rfl, hnode, hjump⟩

theorem exists_of_mem {j : Nat} (h : Detours edge detour? g g' nodes i jumps)
    (hj : j ∈ jumps.reduceOption) : ∃ k n : Nat, nodes[k]? = some n ∧ jumps[k]? = some (some j) := by
  obtain ⟨k, hk⟩ := List.mem_iff_getElem?.mp (List.reduceOption_mem_iff.mp hj)
  obtain ⟨hlt, -⟩ := List.getElem?_eq_some_iff.mp hk
  rw [h.length_eq] at hlt
  exact ⟨k, nodes[k], List.getElem?_eq_getElem hlt, hk⟩

theorem size_le {j : Nat} (h : Detours edge detour? g g' nodes i jumps)
    (hj : jumps[k]? = some (some j)) : g.size ≤ j := by
  obtain ⟨count, -, hrange⟩ := h.added
  have hmem := List.reduceOption_mem_iff.mpr (List.mem_of_getElem? hj)
  rw [hrange, List.mem_range'_1] at hmem
  exact hmem.1

end Detours

variable (edge detour?) in
/-- The run of `detours`, when what it asks at a node depends on that node alone. -/
theorem detours_spec (hlocal : ∀ g h n i, h.node n = g.node n → detour? h n i = detour? g n i) :
    ∀ (nodes : List Nat) (i : Nat) (g : Graph) (done : Array (Option Nat)), nodes.Nodup →
      (∀ n ∈ nodes, n < g.size) → ∃ g' jumps,
        detours edge detour? nodes i g done = (g', done ++ jumps.toArray) ∧
        Detours edge detour? g g' nodes i jumps
  | [], i, g, done, _, _ => ⟨g, [], by simp [detours], rfl, ⟨0, rfl, rfl⟩, fun _ _ _ => rfl, by simp⟩
  | n :: nodes, i, g, done, hnd, hlt => by
    obtain ⟨hn, hnd⟩ := List.nodup_cons.mp hnd
    have hnlt : n < g.size := hlt n List.mem_cons_self
    have hrest : ∀ m ∈ nodes, m < g.size := fun m hm => hlt m (List.mem_cons_of_mem _ hm)
    rw [detours]
    cases hd : detour? g n i with
    | none =>
      obtain ⟨g', jumps, heq, h⟩ :=
        detours_spec hlocal nodes (i + 1) g (done.push none) hnd hrest
      refine ⟨g', none :: jumps, ?_, h.cons_none hd hn hnlt⟩
      simp only [heq, push_append_toArray]
    | some detour =>
      set g₁ := (g.alloc (jumpNode detour.2 detour.1 (g.node n).position)).redirect n edge
        (some g.size) with hg₁
      have hgrown : ∀ m ∈ nodes, m < g₁.size := by
        intro m hm
        have hmlt := hrest m hm
        have hsize : g₁.size = g.size + 1 := by simp [hg₁]
        omega
      obtain ⟨g', jumps, heq, h⟩ := detours_spec hlocal nodes (i + 1) g₁
        (done.push (some g.size)) hnd hgrown
      refine ⟨g', some g.size :: jumps, ?_, h.cons_some hlocal hd hn hnlt hrest⟩
      simp only [← hg₁, heq, push_append_toArray]

/-! ### Jumps woven into a sequence -/

section Weave

open List

theorem weave_cons (n : Nat) (nodes : List Nat) (jump : Option Nat) (jumps : List (Option Nat)) :
    weave (n :: nodes) (jump :: jumps) = n :: (jump.toList ++ weave nodes jumps) := rfl

/-- A woven sequence has the nodes and the jumps, in some order. -/
theorem weave_perm : ∀ {nodes : List Nat} {jumps : List (Option Nat)},
    jumps.length = nodes.length → weave nodes jumps ~ nodes ++ jumps.reduceOption
  | [], [], _ => .refl _
  | n :: nodes, jump :: jumps, h => by
    have ih : weave nodes jumps ~ nodes ++ jumps.reduceOption := weave_perm (by simpa using h)
    have hjump : (jump :: jumps).reduceOption = jump.toList ++ jumps.reduceOption := by
      cases jump <;> simp
    rw [weave_cons, hjump, List.cons_append]
    refine .cons n ?_
    calc jump.toList ++ weave nodes jumps
        ~ jump.toList ++ (nodes ++ jumps.reduceOption) := ih.append_left _
      _ = (jump.toList ++ nodes) ++ jumps.reduceOption := (List.append_assoc ..).symm
      _ ~ (nodes ++ jump.toList) ++ jumps.reduceOption := List.perm_append_comm.append_right _
      _ = nodes ++ (jump.toList ++ jumps.reduceOption) := List.append_assoc ..

theorem sublist_weave : ∀ {nodes : List Nat} {jumps : List (Option Nat)},
    jumps.length = nodes.length → nodes <+ weave nodes jumps
  | [], _, _ => List.nil_sublist _
  | n :: nodes, jump :: jumps, h => by
    have ih : nodes <+ weave nodes jumps := sublist_weave (by simpa using h)
    rw [weave_cons]
    exact (ih.trans (List.sublist_append_right _ _)).cons_cons n

variable {nodes : List Nat} {jumps : List (Option Nat)} {k n : Nat} {jump : Option Nat}

theorem weave_split : ∀ {nodes : List Nat} {jumps : List (Option Nat)} {k : Nat},
    nodes[k]? = some n → jumps[k]? = some jump → weave nodes jumps =
      weave (nodes.take k) (jumps.take k) ++
        n :: (jump.toList ++ weave (nodes.drop (k + 1)) (jumps.drop (k + 1)))
  | m :: nodes, jump' :: jumps, 0, hk, hj => by
    obtain rfl : m = n := by simpa using hk
    obtain rfl : jump' = jump := by simpa using hj
    rfl
  | m :: nodes, jump' :: jumps, k + 1, hk, hj => by
    have hk' : nodes[k]? = some n := by simpa using hk
    have hj' : jumps[k]? = some jump := by simpa using hj
    simp only [weave_cons, List.take_succ_cons, List.drop_succ_cons, weave_split hk' hj',
      List.cons_append, List.append_assoc]

theorem infix_weave_jump {j : Nat} (hk : nodes[k]? = some n) (hj : jumps[k]? = some (some j)) :
    [n, j] <:+: weave nodes jumps := by
  rw [weave_split hk hj]
  exact pair_infix_append _ _

theorem infix_weave_next {s : Nat} (hlen : jumps.length = nodes.length) (hk : nodes[k]? = some n)
    (hj : jumps[k]? = some none) (hs : nodes[k + 1]? = some s) : [n, s] <:+: weave nodes jumps := by
  obtain ⟨hlt, hs'⟩ := List.getElem?_eq_some_iff.mp hs
  rw [weave_split hk hj, ← List.getElem_cons_drop (by omega : k + 1 < nodes.length),
    ← List.getElem_cons_drop (by omega : k + 1 < jumps.length), hs']
  exact pair_infix_append _ _

theorem sublist_weave_jump {j l t : Nat} (hlen : jumps.length = nodes.length)
    (hk : nodes[k]? = some n) (hj : jumps[k]? = some (some j)) (ht : nodes[l]? = some t)
    (hkl : k < l) : [j, t] <+ weave nodes jumps := by
  have hmem : t ∈ nodes.drop (k + 1) := by
    refine List.mem_of_getElem? (i := l - (k + 1)) ?_
    rw [List.getElem?_drop, show k + 1 + (l - (k + 1)) = l by omega, ht]
  have hwoven : t ∈ weave (nodes.drop (k + 1)) (jumps.drop (k + 1)) :=
    (sublist_weave (by simp [hlen])).subset hmem
  rw [weave_split hk hj]
  refine List.Sublist.trans ?_ (List.sublist_append_right _ _)
  exact ((List.singleton_sublist.mpr hwoven).cons_cons j).cons n

end Weave

/-! ### Closing gaps -/

section Gaps

open List

variable {isa : InstructionSet} {g g₁ : Graph} {order closed : List Nat}

theorem gap?_local (place : Std.HashMap NodeId Nat) (g h : Graph) (n : NodeId) (i : Nat)
    (hn : h.node n = g.node n) : gap? isa place h n i = gap? isa place g n i := by
  simp only [gap?, Graph.fallthrough?, hn]

/-- The successor of a node stands next to it, or there is a gap. -/
theorem gap?_cases (hnd : order.Nodup) {k n : Nat}
    (hsucc : ∀ s, g.fallthrough? isa n = some s → s ∈ order) :
    (gap? isa (places order) g n k = none ∧
      ∀ s, g.fallthrough? isa n = some s → order[k + 1]? = some s) ∨
    ∃ s l opcode, gap? isa (places order) g n k = some (s, opcode) ∧
      g.fallthrough? isa n = some s ∧ order[l]? = some s ∧
      (opcode = isa.jumpAbsolute ∨ opcode = isa.jumpForward ∧ k < l) := by
  cases hf : g.fallthrough? isa n with
  | none => exact Or.inl ⟨by simp only [gap?, hf], fun s hs => by cases hs⟩
  | some s =>
    obtain ⟨l, hl, hs⟩ := List.mem_iff_getElem.mp (hsucc s hf)
    have hls : order[l]? = some s := by rw [List.getElem?_eq_getElem hl, hs]
    have hplace : (places order).getD s 0 = l := getD_places hnd hls
    by_cases hnext : l = k + 1
    · left
      refine ⟨by simp only [gap?, hf, hplace, if_pos hnext], fun s' hs' => ?_⟩
      obtain rfl : s = s' := by simpa using hs'
      rw [← hnext, hls]
    · right
      refine ⟨s, l, if k < l then isa.jumpForward else isa.jumpAbsolute, ?_, rfl, hls, ?_⟩
      · simp only [gap?, hf, hplace, if_neg hnext]
      · by_cases hkl : k < l
        · exact Or.inr ⟨if_pos hkl, hkl⟩
        · exact Or.inl (if_neg hkl)

/-- The node `j` is a new jump behind `n` to its successor in `g`. -/
structure GapJump (isa : InstructionSet) (g g₁ : Graph) (closed : List Nat) (n j : Nat) : Prop where
  added : g.size ≤ j
  next : [n, j] <:+: closed
  jump : ∃ s opcode, g.fallthrough? isa n = some s ∧
    g₁.node j = jumpNode opcode s (g.node n).position ∧
    (opcode = isa.jumpAbsolute ∨ opcode = isa.jumpForward ∧ [j, s] <+ closed)

/-- What `closeGaps` gives for a sequence `order`. -/
structure GapsClosed (isa : InstructionSet) (g g₁ : Graph) (order closed : List Nat) : Prop where
  added : ∃ count, g₁.size = g.size + count ∧ closed ~ order ++ List.range' g.size count
  head : closed.head? = order.head?
  in_order : order <+ closed
  frame : ∀ m < g.size, m ∉ order → g₁.node m = g.node m
  node : ∀ n ∈ order,
    (g₁.node n = g.node n ∧ ∀ s, g.fallthrough? isa n = some s → [n, s] <:+: closed) ∨
    ∃ j, GapJump isa g g₁ closed n j ∧ g₁.node n = (g.node n).withEdge .fallthrough (some j)
  jump : ∀ j ∈ closed, g.size ≤ j → ∃ n ∈ order, GapJump isa g g₁ closed n j

namespace GapsClosed

variable (h : GapsClosed isa g g₁ order closed)
include h

theorem nodup (hnd : order.Nodup) (hlt : ∀ n ∈ order, n < g.size) : closed.Nodup := by
  obtain ⟨count, -, hperm⟩ := h.added
  refine hperm.nodup_iff.mpr (hnd.append List.nodup_range' fun n hn hr => ?_)
  have := hlt n hn
  have := (List.mem_range'_1.mp hr).1
  omega

theorem lt_size (hlt : ∀ n ∈ order, n < g.size) {n : Nat} (hn : n ∈ closed) : n < g₁.size := by
  obtain ⟨count, hcount, hperm⟩ := h.added
  rw [hperm.mem_iff, List.mem_append] at hn
  rcases hn with hn | hn
  · have := hlt n hn
    omega
  · have := (List.mem_range'_1.mp hn).2
    omega

theorem mem_iff {n : Nat} (hn : n < g.size) : n ∈ closed ↔ n ∈ order := by
  obtain ⟨count, -, hperm⟩ := h.added
  rw [hperm.mem_iff, List.mem_append, List.mem_range'_1]
  exact ⟨fun hc => hc.resolve_right (by omega), Or.inl⟩

theorem body_branch {n : Nat} (hn : n < g.size) :
    (g₁.node n).body = (g.node n).body ∧ (g₁.node n).branch = (g.node n).branch := by
  by_cases ho : n ∈ order
  · rcases h.node n ho with ⟨heq, -⟩ | ⟨j, -, heq⟩
    · simp [heq]
    · simp [heq]
  · simp [h.frame n hn ho]

end GapsClosed

theorem head?_weave : ∀ {nodes : List Nat} {jumps : List (Option Nat)},
    jumps.length = nodes.length → (weave nodes jumps).head? = nodes.head?
  | [], _, _ => rfl
  | _ :: _, _ :: _, _ => rfl

theorem closeGaps_spec (hnd : order.Nodup) (hlt : ∀ n ∈ order, n < g.size)
    (hsucc : ∀ n ∈ order, ∀ s, g.fallthrough? isa n = some s → s ∈ order) :
    ∃ g₁ closed, closeGaps isa g order = (g₁, closed) ∧ GapsClosed isa g g₁ order closed := by
  obtain ⟨g₁, jumps, heq, h⟩ := detours_spec .fallthrough (gap? isa (places order))
    (gap?_local (places order)) order 0 g #[] hnd hlt
  have hlen := h.length_eq
  obtain ⟨count, hcount, hrange⟩ := h.added
  -- where a node has a gap, its new jump is as it should be
  have hgap : ∀ {k n j : Nat}, order[k]? = some n → jumps[k]? = some (some j) →
      GapJump isa g g₁ (weave order jumps) n j ∧
        g₁.node n = (g.node n).withEdge .fallthrough (some j) := by
    intro k n j hk hj
    obtain ⟨target, opcode, hasked, hn, hnode⟩ := h.of_some hk hj
    rw [Nat.zero_add] at hasked
    rcases gap?_cases hnd (hsucc n (List.mem_of_getElem? hk)) with
      ⟨hnone, -⟩ | ⟨s, l, op, hsome, hf, hl, hop⟩
    · rw [hnone] at hasked
      cases hasked
    · rw [hsome] at hasked
      obtain ⟨rfl, rfl⟩ := Prod.mk.inj (Option.some.inj hasked)
      refine ⟨⟨h.size_le hj, infix_weave_jump hk hj, s, op, hf, hnode, ?_⟩, hn⟩
      exact hop.imp_right fun ⟨ho, hkl⟩ => ⟨ho, sublist_weave_jump hlen hk hj hl hkl⟩
  refine ⟨g₁, weave order jumps, ?_, ⟨count, hcount, hrange ▸ weave_perm hlen⟩, head?_weave hlen,
    sublist_weave hlen, h.frame, ?_, ?_⟩
  · simp only [closeGaps, heq]
    simp
  · intro n hn
    obtain ⟨k, hk⟩ := List.mem_iff_getElem?.mp hn
    obtain ⟨jump, hjump, -⟩ := h.detoured k n hk
    cases jump with
    | some j => exact Or.inr ⟨j, hgap hk hjump⟩
    | none =>
      left
      obtain ⟨hnone, hkept⟩ := h.of_none hk hjump
      rw [Nat.zero_add] at hnone
      rcases gap?_cases hnd (hsucc n hn) with ⟨-, hnext⟩ | ⟨s, l, op, hsome, -⟩
      · exact ⟨hkept, fun s hs => infix_weave_next hlen hk hjump (hnext s hs)⟩
      · rw [hsome] at hnone
        cases hnone
  · intro j hj hge
    rw [(weave_perm hlen).mem_iff, List.mem_append] at hj
    rcases hj with hj | hj
    · exact absurd (hlt j hj) (by omega)
    · obtain ⟨k, n, hn, hk⟩ := h.exists_of_mem hj
      exact ⟨n, List.mem_of_getElem? hn, (hgap hn hk).1⟩

end Gaps

/-! ### Adding trampolines -/

section Trampolines

open List

variable {isa : InstructionSet} {g g₁ : Graph} {nodes laid : List Nat}

theorem wrongWay?_local (place : Std.HashMap NodeId Nat) (g h : Graph) (n : NodeId) (i : Nat)
    (hn : h.node n = g.node n) : wrongWay? isa place h n i = wrongWay? isa place g n i := by
  simp only [wrongWay?, hn]

/-- A relative jump stands on the side of its target from which it counts, or it goes the wrong
way. -/
theorem wrongWay?_cases (hnd : nodes.Nodup) {k n : Nat} (hk : nodes[k]? = some n)
    (hbranch : ((g.node n).flags isa).jumpRelative = true →
      ∀ t, (g.node n).branch = some t → t ∈ nodes) :
    (wrongWay? isa (places nodes) g n k = none ∧ (((g.node n).flags isa).jumpRelative = true →
      ∀ t, (g.node n).branch = some t →
        ([n, t] <+ nodes ↔ ((g.node n).flags isa).jumpBackward = false))) ∨
    ∃ t, wrongWay? isa (places nodes) g n k = some (t, isa.jumpAbsolute) ∧
      ((g.node n).flags isa).jumpRelative = true ∧ (g.node n).branch = some t ∧
      ([n, t] <+ nodes ↔ ((g.node n).flags isa).jumpBackward = true) := by
  cases hr : ((g.node n).flags isa).jumpRelative with
  | false => exact Or.inl ⟨by simp [wrongWay?, hr], fun h => by cases h⟩
  | true =>
    cases hb : (g.node n).branch with
    | none => exact Or.inl ⟨by simp [wrongWay?, hr, hb], fun _ t ht => by cases ht⟩
    | some t =>
      obtain ⟨l, hl, ht⟩ := List.mem_iff_getElem.mp (hbranch hr t hb)
      have hlt : nodes[l]? = some t := by rw [List.getElem?_eq_getElem hl, ht]
      have hplace : (places nodes).getD t 0 = l := getD_places hnd hlt
      have hahead : [n, t] <+ nodes ↔ k < l := by
        refine ⟨fun hsub => ?_, fun hkl => pair_sublist_iff.mpr ⟨k, l, hkl, hk, hlt⟩⟩
        obtain ⟨k', l', hkl', hk', hl'⟩ := pair_sublist_iff.mp hsub
        have := getElem?_inj_of_nodup hnd hk hk'
        have := getElem?_inj_of_nodup hnd hlt hl'
        omega
      have hsome : ∀ t', some t = some t' → ([n, t'] <+ nodes ↔ k < l) := fun t' ht' =>
        Option.some.inj ht' ▸ hahead
      cases hback : ((g.node n).flags isa).jumpBackward <;> by_cases hkl : k < l
      · exact Or.inl ⟨by simp [wrongWay?, hr, hb, hplace, hback, hkl], fun _ t' ht' => by
          simp [hsome t' ht', hkl]⟩
      · exact Or.inr ⟨t, by simp [wrongWay?, hr, hb, hplace, hback, Nat.not_lt.mp hkl], rfl, rfl, by
          simp [hahead, hkl]⟩
      · exact Or.inr ⟨t, by simp [wrongWay?, hr, hb, hplace, hback, hkl], rfl, rfl, by
          simp [hahead, hkl]⟩
      · exact Or.inl ⟨by simp [wrongWay?, hr, hb, hplace, hback, hkl], fun _ t' ht' => by
          simp [hsome t' ht', hkl]⟩

/-- The node `j` is a new jump to where `n` could not jump to. -/
structure Trampoline (isa : InstructionSet) (g g₁ : Graph) (nodes laid : List Nat) (n j t : Nat) :
    Prop where
  added : g.size ≤ j
  mem : j ∈ laid
  relative : ((g.node n).flags isa).jumpRelative = true
  branch : (g.node n).branch = some t
  wrong_way : [n, t] <+ nodes ↔ ((g.node n).flags isa).jumpBackward = true
  jump : g₁.node j = jumpNode isa.jumpAbsolute t (g.node n).position

/-- What `addTrampolines` gives for a sequence `nodes`. -/
structure Trampolines (isa : InstructionSet) (g g₁ : Graph) (nodes laid : List Nat) : Prop where
  added : ∃ count, g₁.size = g.size + count ∧ laid = nodes ++ List.range' g.size count
  frame : ∀ m < g.size, m ∉ nodes → g₁.node m = g.node m
  node : ∀ n ∈ nodes,
    (g₁.node n = g.node n ∧ (((g.node n).flags isa).jumpRelative = true →
      ∀ t, (g.node n).branch = some t →
        ([n, t] <+ nodes ↔ ((g.node n).flags isa).jumpBackward = false))) ∨
    ∃ j t, Trampoline isa g g₁ nodes laid n j t ∧ g₁.node n = (g.node n).withEdge .branch (some j)
  jump : ∀ j ∈ laid, g.size ≤ j → ∃ n ∈ nodes, ∃ t, Trampoline isa g g₁ nodes laid n j t

namespace Trampolines

variable (h : Trampolines isa g g₁ nodes laid)
include h

theorem body_successor {n : Nat} (hn : n < g.size) :
    (g₁.node n).body = (g.node n).body ∧ (g₁.node n).successor = (g.node n).successor := by
  by_cases ho : n ∈ nodes
  · rcases h.node n ho with ⟨heq, -⟩ | ⟨j, t, -, heq⟩
    · simp [heq]
    · simp [heq]
  · simp [h.frame n hn ho]

theorem prefix_laid : nodes <+: laid := by
  obtain ⟨count, -, hl⟩ := h.added
  exact hl ▸ List.prefix_append ..

theorem nodup (hnd : nodes.Nodup) (hlt : ∀ n ∈ nodes, n < g.size) : laid.Nodup := by
  obtain ⟨count, -, hl⟩ := h.added
  rw [hl]
  refine hnd.append List.nodup_range' fun n hn hr => ?_
  have := hlt n hn
  have := (List.mem_range'_1.mp hr).1
  omega

theorem mem_iff {n : Nat} (hn : n < g.size) : n ∈ laid ↔ n ∈ nodes := by
  obtain ⟨count, -, hl⟩ := h.added
  rw [hl, List.mem_append, List.mem_range'_1]
  exact ⟨fun hc => hc.resolve_right (by omega), Or.inl⟩

theorem lt_size (hlt : ∀ n ∈ nodes, n < g.size) {n : Nat} (hn : n ∈ laid) : n < g₁.size := by
  obtain ⟨count, hcount, hl⟩ := h.added
  rw [hl, List.mem_append] at hn
  rcases hn with hn | hn
  · have := hlt n hn
    omega
  · have := (List.mem_range'_1.mp hn).2
    omega

/-- A trampoline stands behind every node that was there before. -/
theorem before (hlt : ∀ n ∈ nodes, n < g.size) {n j : Nat} (hn : n ∈ nodes) (hj : j ∈ laid)
    (hge : g.size ≤ j) : [n, j] <+ laid := by
  obtain ⟨count, -, hl⟩ := h.added
  rw [hl, List.mem_append] at hj
  have hj' : j ∈ List.range' g.size count :=
    hj.resolve_left fun hc => by have := hlt j hc; omega
  rw [hl]
  exact (List.singleton_sublist.mpr hn).append (List.singleton_sublist.mpr hj')

end Trampolines

theorem addTrampolines_spec (hnd : nodes.Nodup) (hlt : ∀ n ∈ nodes, n < g.size)
    (hbranch : ∀ n ∈ nodes, ((g.node n).flags isa).jumpRelative = true →
      ∀ t, (g.node n).branch = some t → t ∈ nodes) :
    ∃ g₁ laid, addTrampolines isa g nodes = (g₁, laid) ∧ Trampolines isa g g₁ nodes laid := by
  obtain ⟨g₁, jumps, heq, h⟩ := detours_spec .branch (wrongWay? isa (places nodes))
    (wrongWay?_local (places nodes)) nodes 0 g #[] hnd hlt
  obtain ⟨count, hcount, hrange⟩ := h.added
  -- where a jump goes the wrong way, its new jump is as it should be
  have htrampoline : ∀ {k n j : Nat}, nodes[k]? = some n → jumps[k]? = some (some j) →
      ∃ t, Trampoline isa g g₁ nodes (nodes ++ List.range' g.size count) n j t ∧
        g₁.node n = (g.node n).withEdge .branch (some j) := by
    intro k n j hk hj
    have hn := List.mem_of_getElem? hk
    obtain ⟨target, opcode, hasked, hnode, hjump⟩ := h.of_some hk hj
    rw [Nat.zero_add] at hasked
    rcases wrongWay?_cases hnd hk (hbranch n hn) with
      ⟨hnone, -⟩ | ⟨t, hsome, hr, hb, hw⟩
    · rw [hnone] at hasked
      cases hasked
    · rw [hsome] at hasked
      obtain ⟨rfl, rfl⟩ := Prod.mk.inj (Option.some.inj hasked)
      have hmem : j ∈ List.range' g.size count := by
        rw [← hrange]
        exact List.reduceOption_mem_iff.mpr (List.mem_of_getElem? hj)
      exact ⟨t, ⟨h.size_le hj, List.mem_append_right _ hmem, hr, hb, hw, hjump⟩, hnode⟩
  refine ⟨g₁, nodes ++ List.range' g.size count, ?_, ⟨count, hcount, rfl⟩, h.frame, ?_, ?_⟩
  · simp only [addTrampolines, heq]
    simp [hrange]
  · intro n hn
    obtain ⟨k, hk⟩ := List.mem_iff_getElem?.mp hn
    obtain ⟨jump, hjump, -⟩ := h.detoured k n hk
    cases jump with
    | some j => exact Or.inr ⟨j, htrampoline hk hjump⟩
    | none =>
      left
      obtain ⟨hnone, hkept⟩ := h.of_none hk hjump
      rw [Nat.zero_add] at hnone
      rcases wrongWay?_cases hnd hk (hbranch n hn) with ⟨-, hbefore⟩ | ⟨t, hsome, -⟩
      · exact ⟨hkept, hbefore⟩
      · rw [hsome] at hnone
        cases hnone
  · intro j hj hge
    rcases List.mem_append.mp hj with hj | hj
    · exact absurd (hlt j hj) (by omega)
    · rw [← hrange] at hj
      obtain ⟨k, n, hn, hk⟩ := h.exists_of_mem hj
      obtain ⟨t, ht, -⟩ := htrampoline hn hk
      exact ⟨n, List.mem_of_getElem? hn, t, ht⟩

end Trampolines

end Layout

end Wordcode
