/-
# Layouts that need no repair

If in the order of a graph every successor stands next to its node and every relative
jump leads ahead, no jump is added: the layout is the order itself, and but for the
offsets the graph stays as it is.

A sequence of what execution can get to is the order if its offsets go up and every
successor stands next to its node. So a graph whose nodes fall through to the next number
at most, and whose offsets go up with the numbers, has an order that goes up.

Key theorems: `Layout.closeGaps_of_next`, `Layout.addTrampolines_of_forward`,
`Layout.exploreFrom_in_order`, `Layout.order_of_ascending`, `Layout.pairwise_order`,
`Layout.order_eq_range`, `Layout.bindOffsets_of_offset`, `Graph.linearize_of_order`.
-/
import Wordcode.Proofs.Layout

namespace Wordcode

namespace Layout

open List

variable {isa : InstructionSet} {g : Graph}

/-! ### No detours -/

section NoDetours

theorem detours_of_none {edge : Edge} {detour? : Graph → NodeId → Nat → Option (NodeId × Opcode)} :
    ∀ {nodes : List Nat} {i : Nat} {done : Array (Option Nat)},
      (∀ k n, nodes[k]? = some n → detour? g n (i + k) = none) →
      detours edge detour? nodes i g done = (g, done ++ (nodes.map fun _ => none).toArray)
  | [], i, done, _ => by simp [detours]
  | n :: nodes, i, done, h => by
    have hfirst : detour? g n i = none := h 0 n rfl
    have hrest : ∀ k m, nodes[k]? = some m → detour? g m (i + 1 + k) = none := fun k m hk => by
      rw [Nat.add_assoc, Nat.add_comm 1]
      exact h (k + 1) m hk
    rw [detours, hfirst]
    simp only [detours_of_none hrest, List.map_cons, push_append_toArray]

theorem weave_none : ∀ nodes : List Nat, weave nodes (nodes.map fun _ => none) = nodes
  | [] => rfl
  | n :: nodes => by
    rw [List.map_cons, weave_cons, weave_none nodes]
    rfl

variable {nodes : List Nat} (hnd : nodes.Nodup)
include hnd

/-- There is no gap where every successor stands next to its node. -/
theorem closeGaps_of_next
    (hnext : ∀ n ∈ nodes, ∀ s, g.fallthrough? isa n = some s → [n, s] <:+: nodes) :
    closeGaps isa g nodes = (g, nodes) := by
  have hnone : ∀ k n, nodes[k]? = some n → gap? isa (places nodes) g n (0 + k) = none := by
    intro k n hk
    cases hf : g.fallthrough? isa n with
    | none => simp only [gap?, hf]
    | some s =>
      obtain ⟨i, hi, hs⟩ := pair_infix_iff.mp (hnext n (List.mem_of_getElem? hk) s hf)
      obtain rfl := getElem?_inj_of_nodup hnd hi hk
      simp only [gap?, hf, getD_places hnd hs, Nat.zero_add, if_true]
  simp only [closeGaps, detours_of_none hnone, Array.empty_append, List.toList_toArray, weave_none]

/-- No jump goes the wrong way where every relative jump counts forward and leads
ahead. -/
theorem addTrampolines_of_forward
    (hforward : ∀ n ∈ nodes, ((g.node n).flags isa).jumpRelative = true →
      ((g.node n).flags isa).jumpBackward = false ∧
        ∀ t, (g.node n).branch = some t → [n, t] <+ nodes) :
    addTrampolines isa g nodes = (g, nodes) := by
  have hnone : ∀ k n, nodes[k]? = some n → wrongWay? isa (places nodes) g n (0 + k) = none := by
    intro k n hk
    rw [wrongWay?, Nat.zero_add]
    by_cases hr : ((g.node n).flags isa).jumpRelative = true
    · obtain ⟨hback, hahead⟩ := hforward n (List.mem_of_getElem? hk) hr
      cases hb : (g.node n).branch with
      | none => simp only [ite_self]
      | some t =>
        obtain ⟨i, j, hij, hi, hj⟩ := pair_sublist_iff.mp (hahead t hb)
        obtain rfl := getElem?_inj_of_nodup hnd hi hk
        have hnot : ¬ j ≤ i := Nat.not_le.mpr hij
        simp [hr, hback, getD_places hnd hj, hnot]
    · simp [hr]
  have hempty : (nodes.map fun _ => (none : Option Nat)).reduceOption = [] := by
    rw [List.reduceOption_eq_nil_iff]
    exact ⟨nodes.length, List.map_const' ..⟩
  simp only [addTrampolines, detours_of_none hnone, Array.empty_append, List.toList_toArray, hempty,
    List.append_nil]

end NoDetours

/-! ### Counting up -/

section CountUp

theorem pair_infix_of_cons {l : List Nat} {c a b : Nat} (hc : c ∉ l) (ha : a ∈ l)
    (h : [a, b] <:+: c :: l) : [a, b] <:+: l := by
  rcases List.infix_cons_iff.mp h with hprefix | hinfix
  · obtain ⟨rfl, -⟩ := List.cons_prefix_cons.mp hprefix
    exact absurd ha hc
  · exact hinfix

theorem exploreFrom_seen {next : Nat → List Nat} (room : Nat) {seen : Std.HashSet Nat}
    (found : Array Nat) : ∀ {work : List Nat}, (∀ n ∈ work, seen.contains n = true) →
      exploreFrom id next room work seen found = found
  | [], _ => exploreFrom_nil ..
  | n :: work, h => by
    rw [exploreFrom_cons_seen _ _ _ _ _ (h n List.mem_cons_self)]
    exact exploreFrom_seen room found fun m hm => h m (List.mem_cons_of_mem n hm)

/-- Behind nodes that were visited, or are the new one themselves, a new node comes next. -/
theorem exploreFrom_next (next : Nat → List Nat) {seen : Std.HashSet Nat} {k : Nat}
    (hnew : seen.contains k = false) (room : Nat) (rest : List Nat) (found : Array Nat) :
    ∀ {early : List Nat}, (∀ n ∈ early, seen.contains n = true ∨ n = k) →
      ∃ waiting : List Nat, (∀ n ∈ waiting, seen.contains n = true ∨ n = k) ∧
        exploreFrom id next (room + 1) (early ++ k :: rest) seen found =
          exploreFrom id next room (next k ++ waiting ++ rest) (seen.insert k) (found.push k)
  | [], _ => by
    refine ⟨[], by simp, ?_⟩
    rw [List.append_nil, List.nil_append]
    exact exploreFrom_cons_new _ _ _ _ _ hnew
  | n :: early, hearly => by
    obtain ⟨hn, hrest⟩ := List.forall_mem_cons.mp hearly
    cases hs : seen.contains n with
    | true =>
      rw [List.cons_append, exploreFrom_cons_seen _ _ _ _ _ hs]
      exact exploreFrom_next next hnew room rest found hrest
    | false =>
      obtain rfl := hn.resolve_left (by rw [hs]; exact Bool.false_ne_true)
      refine ⟨early ++ [n], fun m hm => ?_, ?_⟩
      · rcases List.mem_append.mp hm with hm | hm
        · exact hrest m hm
        · exact Or.inr (List.mem_singleton.mp hm)
      · rw [List.cons_append, List.append_assoc, List.append_assoc, List.singleton_append]
        exact exploreFrom_cons_new _ _ _ _ _ hs

/-- A search that goes on from each node to the one behind it at most, when all nodes are
waiting in their order, behind others that were visited or are the first. -/
theorem exploreFrom_in_order {next : Nat → List Nat} : ∀ (nodes : List Nat) (room : Nat)
    (early : List Nat) (seen : Std.HashSet Nat) (found : Array Nat),
      nodes.Nodup → nodes.length ≤ room → (∀ n ∈ nodes, ∀ m ∈ next n, [n, m] <:+: nodes) →
      (∀ n ∈ nodes, seen.contains n = false) →
      (∀ n ∈ early, seen.contains n = true ∨ nodes.head? = some n) →
      exploreFrom id next room (early ++ nodes) seen found = found ++ nodes.toArray
  | [], room, early, seen, found, _, _, _, _, hearly => by
    have hall : ∀ n ∈ early ++ [], seen.contains n = true := by
      intro n hn
      rw [List.append_nil] at hn
      exact (hearly n hn).resolve_right fun h => by cases h
    rw [exploreFrom_seen room found hall, Array.append_empty]
  | k :: nodes, room + 1, early, seen, found, hnd, hroom, hnext, hnew, hearly => by
    obtain ⟨hk, hnd'⟩ := List.nodup_cons.mp hnd
    have hpast : ∀ n ∈ early, seen.contains n = true ∨ n = k := fun n hn =>
      (hearly n hn).imp_right fun hhead => (Option.some.inj hhead).symm
    obtain ⟨waiting, hwaiting, hvisit⟩ :=
      exploreFrom_next next (hnew k List.mem_cons_self) room nodes found hpast
    rw [hvisit, exploreFrom_in_order nodes room, push_append_toArray]
    · exact hnd'
    · exact Nat.le_of_succ_le_succ hroom
    · intro n hn m hm
      exact pair_infix_of_cons hk hn (hnext n (List.mem_cons_of_mem k hn) m hm)
    · intro n hn
      have hne : k ≠ n := fun heq => hk (heq ▸ hn)
      rw [Std.HashSet.contains_insert, beq_false_of_ne hne, Bool.false_or]
      exact hnew n (List.mem_cons_of_mem k hn)
    · intro n hn
      rw [Std.HashSet.contains_insert, Bool.or_eq_true, beq_iff_eq]
      rcases List.mem_append.mp hn with hn | hn
      · have hpair : [k, n] <:+: [] ++ k :: nodes := hnext k List.mem_cons_self n hn
        have hhead := head?_of_pair_infix hnd hpair
        exact Or.inr hhead
      · rcases hwaiting n hn with hseen | rfl
        · exact Or.inl (Or.inr hseen)
        · exact Or.inl (Or.inl rfl)

theorem offsetLe_trans (g : Graph) (a b c : NodeId) (hab : offsetLe g a b = true)
    (hbc : offsetLe g b c = true) : offsetLe g a c = true := by
  simp only [offsetLe] at hab hbc ⊢
  cases ha : (g.node a).offset <;> cases hb : (g.node b).offset <;>
    cases hc : (g.node c).offset <;> simp_all
  omega

theorem offsetLe_total (g : Graph) (a b : NodeId) : (offsetLe g a b || offsetLe g b a) = true := by
  simp only [offsetLe]
  cases ha : (g.node a).offset <;> cases hb : (g.node b).offset <;> simp
  omega

theorem pair_infix_of_pairwise_lt {l : List Nat} (hl : l.Pairwise (· < ·)) {n : Nat} (hn : n ∈ l)
    (hs : n + 1 ∈ l) : [n, n + 1] <:+: l := by
  induction hl with
  | nil => cases hn
  | @cons a l hall hl ih =>
    rcases List.mem_cons.mp hn with rfl | hn
    · have hs' : n + 1 ∈ l := (List.mem_cons.mp hs).resolve_left (Nat.succ_ne_self n)
      cases l with
      | nil => cases hs'
      | cons b l =>
        -- nothing is between a number and the next
        have hb : n < b := hall b List.mem_cons_self
        have hle : b ≤ n + 1 := by
          rcases List.mem_cons.mp hs' with rfl | hmem
          · exact Nat.le_refl _
          · exact Nat.le_of_lt (List.rel_of_pairwise_cons hl hmem)
        obtain rfl : b = n + 1 := by omega
        exact ⟨[], l, rfl⟩
    · have hs' : n + 1 ∈ l := by
        refine (List.mem_cons.mp hs).resolve_left fun heq => ?_
        have := hall n hn
        omega
      exact (ih hn hs').trans (List.infix_cons (List.infix_refl l))

theorem pair_sublist_of_pairwise_lt {l : List Nat} (hl : l.Pairwise (· < ·)) {n t : Nat}
    (hn : n ∈ l) (ht : t ∈ l) (h : n < t) : [n, t] <+ l := by
  induction hl with
  | nil => cases hn
  | @cons a l hall _ ih =>
    rcases List.mem_cons.mp hn with rfl | hn
    · have ht' : t ∈ l := (List.mem_cons.mp ht).resolve_left (Nat.ne_of_gt h)
      exact (List.singleton_sublist.mpr ht').cons_cons n
    · have ht' : t ∈ l := by
        refine (List.mem_cons.mp ht).resolve_left fun heq => ?_
        exact absurd (heq ▸ h) (Nat.lt_asymm (hall n hn))
      exact (ih hn ht').cons a

theorem eq_of_pairwise_lt {l m : List Nat} (hl : l.Pairwise (· < ·)) (hm : m.Pairwise (· < ·))
    (h : ∀ n, n ∈ l ↔ n ∈ m) : l = m := by
  have hperm : l ~ m := (List.perm_ext_iff_of_nodup (hl.imp Nat.ne_of_lt)
    (hm.imp Nat.ne_of_lt)).mpr h
  exact List.Perm.eq_of_pairwise (fun a b _ _ hab hba => absurd hba (Nat.lt_asymm hab)) hl hm hperm

theorem nodup_of_ascending {nodes : List NodeId}
    (hascending : nodes.Pairwise fun a b => offsetLe g b a = false) : nodes.Nodup :=
  hascending.imp fun {a b} hab heq => by
    have htotal := offsetLe_total g b b
    rw [heq] at hab
    rw [hab] at htotal
    cases htotal

theorem mergeSort_of_perm {α : Type} {le : α → α → Bool} {xs ys : List α}
    (htrans : ∀ a b c, le a b = true → le b c = true → le a c = true)
    (htotal : ∀ a b, (le a b || le b a) = true) (hperm : xs ~ ys)
    (hascending : ys.Pairwise fun a b => le b a = false) : xs.mergeSort le = ys := by
  have hle : ∀ a b, le b a = false → le a b = true := by
    intro a b hab
    have hor := htotal a b
    rwa [hab, Bool.or_false] at hor
  have hperm' : xs.mergeSort le ~ ys := (List.mergeSort_perm xs le).trans hperm
  -- no two elements count as the same
  have hantisymm : ∀ a ∈ ys, ∀ b ∈ ys, le a b = true → le b a = true → a = b := by
    intro a ha b hb hab hba
    obtain ⟨i, hi, rfl⟩ := List.mem_iff_getElem.mp ha
    obtain ⟨j, hj, rfl⟩ := List.mem_iff_getElem.mp hb
    rcases Nat.lt_trichotomy i j with hij | rfl | hij
    · have hlt := List.pairwise_iff_getElem.mp hascending i j hi hj hij
      exact absurd (hlt.symm.trans hba) Bool.false_ne_true
    · rfl
    · have hlt := List.pairwise_iff_getElem.mp hascending j i hj hi hij
      exact absurd (hlt.symm.trans hab) Bool.false_ne_true
  exact List.Perm.eq_of_pairwise
    (fun a b ha hb hab hba => hantisymm a (hperm'.mem_iff.mp ha) b hb hab hba)
    (List.pairwise_mergeSort htrans htotal xs) (hascending.imp fun {a b} => hle a b) hperm'

theorem mergeSort_of_ascending {roots nodes : List NodeId} (hg : g.Closed)
    (hroots : ∀ r ∈ roots, r < g.size) (hmem : ∀ n, n ∈ nodes ↔ g.Live isa roots n)
    (hascending : nodes.Pairwise fun a b => offsetLe g b a = false) :
    (g.reachable isa roots).mergeSort (offsetLe g) = nodes := by
  refine mergeSort_of_perm (offsetLe_trans g) (offsetLe_total g) ?_ hascending
  refine (List.perm_ext_iff_of_nodup (Graph.nodup_reachable hg hroots)
    (nodup_of_ascending hascending)).mpr fun n => ?_
  rw [Graph.mem_reachable hg hroots, hmem]

/-- **A sequence whose offsets go up is the order**, if it starts at the entry, holds what
execution can get to, and has every successor next to its node. -/
theorem order_of_ascending {entry : NodeId} {handlers : List NodeId} (hg : g.Closed)
    (hroots : ∀ r ∈ entry :: handlers, r < g.size) {layout : List NodeId}
    (hhead : layout.head? = some entry)
    (hmem : ∀ n, n ∈ layout ↔ g.Live isa (entry :: handlers) n)
    (hascending : layout.Pairwise fun a b => offsetLe g b a = false)
    (hnext : ∀ n ∈ layout, ∀ s, g.fallthrough? isa n = some s → [n, s] <:+: layout) :
    order isa g entry (g.reachable isa (entry :: handlers)) = layout := by
  have hnd := nodup_of_ascending hascending
  have hsorted := mergeSort_of_ascending hg hroots hmem hascending
  have hlen : layout.length ≤ g.size := by
    rw [← List.length_range (n := g.size)]
    refine (List.subperm_of_subset hnd fun n hn => List.mem_range.mpr ?_).length_le
    exact hg.lt_of_live hroots ((hmem n).mp hn)
  have hstep : ∀ n ∈ layout, ∀ m ∈ (g.fallthrough? isa n).toList, [n, m] <:+: layout :=
    fun n hn m hm => hnext n hn m (Option.mem_toList.mp hm)
  have hrun := exploreFrom_in_order layout g.size [entry] ∅ #[] hnd hlen hstep (by simp) fun n hn =>
    Or.inr (List.mem_singleton.mp hn ▸ hhead)
  rw [order, Graph.chains, explore, hsorted, ← List.singleton_append, hrun, Array.empty_append]

variable {handlers : List NodeId}

/-- **The order of a graph whose offsets count up with its nodes counts up**, if its nodes
fall through to the next one at most. -/
theorem pairwise_order (hg : g.Closed) (hroots : ∀ r ∈ 0 :: handlers, r < g.size)
    (hoffset : ∀ n < g.size, (g.node n).offset = some (2 * n))
    (hnext : ∀ n s, g.fallthrough? isa n = some s → s = n + 1) :
    (order isa g 0 (g.reachable isa (0 :: handlers))).Pairwise (· < ·) := by
  set found := g.reachable isa (0 :: handlers) with hfound
  have hmem : ∀ n, n ∈ found.mergeSort (offsetLe g) ↔ g.Live isa (0 :: handlers) n := by
    intro n
    rw [List.mem_mergeSort, hfound, Graph.mem_reachable hg hroots]
  have hlt : ∀ n ∈ found.mergeSort (offsetLe g), n < g.size := fun n hn =>
    hg.lt_of_live hroots ((hmem n).mp hn)
  have hnd : (found.mergeSort (offsetLe g)).Nodup :=
    (List.mergeSort_perm found (offsetLe g)).nodup_iff.mpr (Graph.nodup_reachable hg hroots)
  have hle : ∀ a < g.size, ∀ b < g.size, offsetLe g a b = true → a ≤ b := by
    intro a ha b hb hab
    simp only [offsetLe, hoffset a ha, hoffset b hb, decide_eq_true_eq] at hab
    omega
  have hsorted : (found.mergeSort (offsetLe g)).Pairwise (· < ·) := by
    have hpairs := List.pairwise_mergeSort (offsetLe_trans g) (offsetLe_total g) found
    refine (hpairs.and hnd).imp_of_mem fun ha hb hab => ?_
    exact Nat.lt_of_le_of_ne (hle _ (hlt _ ha) _ (hlt _ hb) hab.1) hab.2
  have hhead : (found.mergeSort (offsetLe g)).head? = some 0 := by
    have hzero : 0 ∈ found.mergeSort (offsetLe g) := (hmem 0).mpr (Reach.root List.mem_cons_self)
    cases hl : found.mergeSort (offsetLe g) with
    | nil =>
      rw [hl] at hzero
      cases hzero
    | cons a l =>
      rw [hl] at hzero hsorted
      rcases List.mem_cons.mp hzero with heq | hbehind
      · rw [List.head?_cons, heq]
      · exact absurd (List.rel_of_pairwise_cons hsorted hbehind) (Nat.not_lt_zero a)
  have hascending : (found.mergeSort (offsetLe g)).Pairwise fun a b => offsetLe g b a = false := by
    refine hsorted.imp_of_mem fun {a b} ha hb hab => ?_
    rw [← Bool.not_eq_true]
    exact fun hba => Nat.not_lt.mpr (hle b (hlt b hb) a (hlt a ha) hba) hab
  rw [hfound, order_of_ascending hg hroots hhead hmem hascending fun n hn s hs => ?_]
  · exact hsorted
  · have hlive := ((hmem n).mp hn).step (Graph.mem_targets.mpr (Or.inl hs))
    obtain rfl := hnext n s hs
    exact pair_infix_of_pairwise_lt hsorted hn ((hmem _).mpr hlive)

/-- The order is that of the nodes, if execution gets to all of them. -/
theorem order_eq_range (hg : g.Closed) (hroots : ∀ r ∈ 0 :: handlers, r < g.size)
    (hlive : ∀ n < g.size, g.Live isa (0 :: handlers) n)
    (hoffset : ∀ n < g.size, (g.node n).offset = some (2 * n))
    (hnext : ∀ n s, g.fallthrough? isa n = some s → s = n + 1) :
    order isa g 0 (g.reachable isa (0 :: handlers)) = List.range g.size := by
  refine eq_of_pairwise_lt (pairwise_order hg hroots hoffset hnext) List.pairwise_lt_range fun n => ?_
  rw [mem_order hg hroots, List.mem_range]
  exact ⟨hg.lt_of_live hroots, hlive n⟩

end CountUp

/-! ### Offsets that are there -/

section Offsets

theorem modify_eq_self {n : NodeId} {f : Node → Node} (h : f (g.node n) = g.node n) :
    g.modify n f = g := by
  obtain ⟨nodes⟩ := g
  unfold Graph.modify
  congr 1
  apply Array.ext
  · exact Array.size_modify
  · intro i hi hi'
    rw [Array.getElem_modify]
    by_cases hn : n = i
    · subst hn
      rw [if_pos rfl]
      simpa [Graph.node, hi'] using h
    · rw [if_neg hn]

/-- Nodes that are bound to the offsets they have stay as they are. -/
theorem bindOffsets_of_offset : ∀ {nodes : List NodeId} {i : Nat},
    (∀ k n, nodes[k]? = some n → (g.node n).offset = some ((i + k) * 2)) →
    bindOffsets nodes i g = g
  | [], _, _ => rfl
  | n :: rest, i, h => by
    have hfirst : ({ g.node n with offset := some (i * 2) } : Node) = g.node n := by
      have hoffset : (g.node n).offset = some (i * 2) := h 0 n rfl
      rw [← hoffset]
    have hrest : ∀ k m, rest[k]? = some m → (g.node m).offset = some ((i + 1 + k) * 2) := by
      intro k m hk
      rw [Nat.add_assoc, Nat.add_comm 1]
      exact h (k + 1) m hk
    rw [bindOffsets, modify_eq_self hfirst]
    exact bindOffsets_of_offset hrest

end Offsets

end Layout

namespace Graph

open List

variable {isa : InstructionSet} {g : Graph} {entry : NodeId} {handlers : List NodeId}

/-- **An order that needs no repair is the layout.** -/
theorem linearize_of_order (hisa : isa.Regular) (hg : g.Closed)
    (hroots : ∀ r ∈ entry :: handlers, r < g.size)
    (hcomplete : ∀ n, g.Live isa (entry :: handlers) n → g.HasEdges isa n) {nodes : List Nat}
    (horder : Layout.order isa g entry (g.reachable isa (entry :: handlers)) = nodes)
    (hnext : ∀ n ∈ nodes, ∀ s, g.fallthrough? isa n = some s → [n, s] <:+: nodes)
    (hforward : ∀ n ∈ nodes, ((g.node n).flags isa).jumpRelative = true →
      ∀ t, (g.node n).branch = some t → [n, t] <+ nodes) :
    g.linearize isa entry handlers = .ok (Layout.bindOffsets nodes 0 g, nodes) := by
  have hnd : nodes.Nodup := horder ▸ Layout.nodup_order hg hroots
  have hfound : g.reachable? isa (entry :: handlers) = .ok (g.reachable isa (entry :: handlers)) :=
    (reachable?_eq_ok_iff hg hroots).mpr ⟨rfl, hcomplete⟩
  have hclose := Layout.closeGaps_of_next hnd hnext
  have hadd := Layout.addTrampolines_of_forward hnd fun n hn hr =>
    ⟨(hisa.opcodes (g.node n).opcode).forward, hforward n hn hr⟩
  simp only [linearize, hfound, horder, hclose, hadd]

end Graph

end Wordcode
