/-
# Closing a region

The ways out of a region are closed one after the other: a return moves behind an exit
that takes its place, and an edge to a target outside is led over the exit for that
target, which is added when it is first needed. What has been done after some of them is
said once (`Flattening.Closing`), by what each of them leaves behind, so that their
order does not matter; each step keeps it.

Key definitions: `Flattening.WayOut`, `Flattening.waysOut`, `Flattening.Closing`,
`Flattening.Frame`.
Key theorems: `Graph.mem_edges_iff`, `Flattening.Closing.beforeReturn`,
`Flattening.Closing.onEdge`, `Flattening.closing_members`.
-/
import Wordcode.Proofs.Reachability
import Wordcode.Proofs.SameCode
import Wordcode.Region.Flatten

namespace Wordcode

/-- Where the edge of a node leads, also if it does not count. -/
def Node.target (node : Node) : Edge → Option NodeId
  | .fallthrough => node.successor
  | .branch => node.branch

@[simp] theorem Node.target_withEdge_self (node : Node) (e : Edge) (t : Option NodeId) :
    (node.withEdge e t).target e = t := by
  cases e <;> rfl

theorem Node.target_withEdge_of_ne (node : Node) {e e' : Edge} (h : e' ≠ e) (t : Option NodeId) :
    (node.withEdge e t).target e' = node.target e' := by
  cases e <;> cases e' <;> first | rfl | exact absurd rfl h

/-- Does the edge count for an opcode with these flags? -/
def Flags.takes (flags : Flags) : Edge → Bool
  | .fallthrough => flags.fallsThrough
  | .branch => flags.isJump

theorem Graph.mem_edges_iff {isa : InstructionSet} {g : Graph} {n m : NodeId} {e : Edge} :
    (m, e) ∈ g.edges isa n ↔
      ((g.node n).flags isa).takes e = true ∧ (g.node n).target e = some m := by
  rw [Graph.mem_edges]
  cases e with
  | fallthrough => exact Graph.fallthrough?_eq_some
  | branch => exact Graph.branch?_eq_some

theorem Graph.lt_of_target {g : Graph} {n m : NodeId} {e : Edge}
    (h : (g.node n).target e = some m) : n < g.size := by
  by_contra hn
  rw [Graph.node_of_size_le (Nat.not_lt.mp hn)] at h
  cases e <;> cases h

namespace Flattening

/-- A way out of a region at a node: a return, or an edge to a target outside. -/
abbrev WayOut := NodeId × Option (NodeId × Edge)

/-- Closes one way out. -/
def Exits.close (isa : InstructionSet) (x : Exits) : WayOut → Exits
  | (n, none) => x.beforeReturn isa n
  | (n, some t) => x.onEdge isa n t.1 t.2

/-- The ways out at a member. -/
def waysOut (isa : InstructionSet) (g : Graph) (inside : NodeId → Bool) (n : NodeId) :
    List WayOut :=
  if ((g.node n).flags isa).returns then [(n, none)]
  else ((g.edges isa n).filter (leaves inside ((g.node n).flags isa))).map fun t => (n, some t)

/-- An exit that leads on to `m`. -/
structure IsExit (isa : InstructionSet) (node : Node) (m : NodeId) : Prop where
  opcode : node.opcode = isa.blockExit
  successor : node.successor = some m
  branch : node.branch = none

/-- The ways out `done` of a region of `g` have been closed. -/
structure Closing (isa : InstructionSet) (g : Graph) (done : List WayOut) (x : Exits) : Prop where
  size_le : g.size ≤ x.graph.size
  /-- The exit for a target is a new node, and some edge is led over it. -/
  exit : ∀ {m k}, x.exitTo.lookup m = some k →
    (g.size ≤ k ∧ k < x.graph.size) ∧ IsExit isa (x.graph.node k) m ∧
      ∃ n e, (n, some (m, e)) ∈ done
  /-- A return has moved to a new node, and an exit stands in its place. -/
  moved : ∀ {n k}, (n, none) ∈ done → (n, k) ∈ x.added →
    (g.size ≤ k ∧ k < x.graph.size) ∧ IsExit isa (x.graph.node n) k ∧
      (x.graph.node k).body = (g.node n).body ∧ ∀ e, (x.graph.node k).target e = none
  exists_moved : ∀ {n}, (n, none) ∈ done → ∃ k, (n, k) ∈ x.added
  moved_inj : ∀ {n n' k}, (n, none) ∈ done → (n', none) ∈ done → (n, k) ∈ x.added →
    (n', k) ∈ x.added → n = n'
  /-- Any other node says what it said, but for the edges that are led over exits. -/
  body_eq : ∀ {n}, n < g.size → (n, none) ∉ done → (x.graph.node n).body = (g.node n).body
  led : ∀ {n m e}, (n, some (m, e)) ∈ done →
    ∃ k, x.exitTo.lookup m = some k ∧ (x.graph.node n).target e = some k ∧ (n, k) ∈ x.added
  kept : ∀ {n e}, n < g.size → (n, none) ∉ done → (∀ m, (n, some (m, e)) ∉ done) →
    (x.graph.node n).target e = (g.node n).target e
  /-- What was added inside the region stands behind a way out. -/
  added : ∀ {n k}, (n, k) ∈ x.added →
    (n, none) ∈ done ∨ ∃ m e, (n, some (m, e)) ∈ done ∧ x.exitTo.lookup m = some k
  fresh : ∀ {k}, g.size ≤ k → k < x.graph.size →
    (∃ m, x.exitTo.lookup m = some k) ∨ ∃ n, (n, none) ∈ done ∧ (n, k) ∈ x.added

variable {isa : InstructionSet} {g : Graph} {done : List WayOut} {x : Exits} {n m : NodeId}
  {e : Edge}

theorem closing_nil (isa : InstructionSet) (g : Graph) : Closing isa g [] { graph := g } where
  size_le := Nat.le_refl _
  exit := fun h => nomatch h
  moved := fun h => nomatch h
  exists_moved := fun h => nomatch h
  moved_inj := fun h => nomatch h
  body_eq := fun _ _ => rfl
  led := fun h => nomatch h
  kept := fun _ _ _ => rfl
  added := fun h => nomatch h
  fresh := fun h hk => absurd hk (Nat.not_lt.mpr h)

theorem node_beforeReturn (hn : n < x.graph.size) (k : NodeId) :
    (x.beforeReturn isa n).graph.node k =
      if k = n then { (x.graph.node n).withOperand .none with
        opcode := isa.blockExit, successor := some x.graph.size, branch := none }
      else if k = x.graph.size then
        { x.graph.node n with offset := none, successor := none, branch := none }
      else x.graph.node k := by
  have hne : n ≠ x.graph.size := Nat.ne_of_lt hn
  have hlt : n < x.graph.size + 1 := Nat.lt_succ_of_lt hn
  simp only [Exits.beforeReturn, Graph.node_modify, Graph.size_alloc, Graph.node_alloc]
  by_cases hk : k = n
  · subst hk
    simp [hne, hlt]
  · simp [hk, Ne.symm hk]

theorem IsExit.lt {g : Graph} (h : IsExit isa (g.node n) m) : n < g.size := by
  by_contra hn
  have hsuccessor := h.successor
  rw [Graph.node_of_size_le (Nat.not_lt.mp hn)] at hsuccessor
  cases hsuccessor

theorem Closing.not_mem_added (h : Closing isa g done x) (hnew : ∀ w, (n, w) ∉ done) (k : NodeId) :
    (n, k) ∉ x.added := fun hk => by
  rcases h.added hk with hd | ⟨m, e, hd, -⟩
  · exact hnew _ hd
  · exact hnew _ hd

/-! ### What a step leaves alone -/

/-- Only `n` and new nodes have changed, `k` was added behind `n`, and what had an exit
keeps it. -/
structure Frame (x x' : Exits) (n k : NodeId) : Prop where
  added_eq : x'.added = (n, k) :: x.added
  size_le : x.graph.size ≤ x'.graph.size
  node_of_ne : ∀ {j}, j ≠ n → j < x.graph.size → x'.graph.node j = x.graph.node j
  lookup : ∀ {m j}, x.exitTo.lookup m = some j → x'.exitTo.lookup m = some j

namespace Frame

variable {x' : Exits} {k n' j : NodeId} (frame : Frame x x' n k)
include frame

theorem mem_added (hj : (n', j) ∈ x.added) : (n', j) ∈ x'.added := by
  rw [frame.added_eq]
  exact List.mem_cons_of_mem _ hj

theorem mem_added_of_ne (hne : n' ≠ n) (hj : (n', j) ∈ x'.added) : (n', j) ∈ x.added := by
  rw [frame.added_eq] at hj
  exact (List.mem_cons.mp hj).resolve_left fun h => hne (congrArg Prod.fst h)

theorem self_mem_added : (n, k) ∈ x'.added := by
  rw [frame.added_eq]
  exact List.mem_cons_self

variable (h : Closing isa g done x)
include h

theorem node_old (hlt : n' < g.size) (hne : n' ≠ n) : x'.graph.node n' = x.graph.node n' :=
  frame.node_of_ne hne (Nat.lt_of_lt_of_le hlt h.size_le)

theorem exit (hn : n < g.size) (hj : x.exitTo.lookup m = some j) :
    (g.size ≤ j ∧ j < x'.graph.size) ∧ IsExit isa (x'.graph.node j) m ∧
      ∃ n e, (n, some (m, e)) ∈ done := by
  obtain ⟨⟨hlow, hlt⟩, hexit, hused⟩ := h.exit hj
  rw [frame.node_of_ne (Nat.ne_of_gt (Nat.lt_of_lt_of_le hn hlow)) hlt]
  exact ⟨⟨hlow, Nat.lt_of_lt_of_le hlt frame.size_le⟩, hexit, hused⟩

theorem moved (hn : n < g.size) (hne : n' ≠ n) (hd : (n', none) ∈ done)
    (hj : (n', j) ∈ x'.added) : (g.size ≤ j ∧ j < x.graph.size) ∧
      IsExit isa (x'.graph.node n') j ∧ (x'.graph.node j).body = (g.node n').body ∧
        ∀ e, (x'.graph.node j).target e = none := by
  obtain ⟨⟨hlow, hlt⟩, hexit, hbody, htarget⟩ := h.moved hd (frame.mem_added_of_ne hne hj)
  rw [frame.node_of_ne (Nat.ne_of_gt (Nat.lt_of_lt_of_le hn hlow)) hlt,
    frame.node_of_ne hne hexit.lt]
  exact ⟨⟨hlow, hlt⟩, hexit, hbody, htarget⟩

theorem exists_moved (hd : (n', none) ∈ done) : ∃ j, (n', j) ∈ x'.added := by
  obtain ⟨j, hj⟩ := h.exists_moved hd
  exact ⟨j, frame.mem_added hj⟩

theorem led (hne : n' ≠ n) (hd : (n', some (m, e)) ∈ done) :
    ∃ j, x'.exitTo.lookup m = some j ∧ (x'.graph.node n').target e = some j ∧
      (n', j) ∈ x'.added := by
  obtain ⟨j, hlookup, htarget, hj⟩ := h.led hd
  rw [frame.node_of_ne hne (Graph.lt_of_target htarget)]
  exact ⟨j, frame.lookup hlookup, htarget, frame.mem_added hj⟩

theorem fresh (hlow : g.size ≤ j) (hlt : j < x.graph.size) :
    (∃ m, x'.exitTo.lookup m = some j) ∨ ∃ n', (n', none) ∈ done ∧ (n', j) ∈ x'.added := by
  rcases h.fresh hlow hlt with ⟨m, hm⟩ | ⟨n', hd, hj⟩
  · exact Or.inl ⟨m, frame.lookup hm⟩
  · exact Or.inr ⟨n', hd, frame.mem_added hj⟩

theorem added (hj : (n', j) ∈ x.added) :
    (n', none) ∈ done ∨ ∃ m e, (n', some (m, e)) ∈ done ∧ x'.exitTo.lookup m = some j := by
  rcases h.added hj with hd | ⟨m, e, hd, hlookup⟩
  · exact Or.inl hd
  · exact Or.inr ⟨m, e, hd, frame.lookup hlookup⟩

end Frame

/-! ### Each step -/

theorem frame_beforeReturn (hn : n < x.graph.size) :
    Frame x (x.beforeReturn isa n) n x.graph.size where
  added_eq := rfl
  size_le := by simp [Exits.beforeReturn]
  node_of_ne := fun hne hlt => by
    rw [node_beforeReturn hn, if_neg hne, if_neg (Nat.ne_of_lt hlt)]
  lookup := fun h => h

/-- A return is put behind an exit. -/
theorem Closing.beforeReturn (h : Closing isa g done x) (hn : n < g.size)
    (hnew : ∀ w, (n, w) ∉ done) : Closing isa g ((n, none) :: done) (x.beforeReturn isa n) := by
  have hle := h.size_le
  have hnx : n < x.graph.size := Nat.lt_of_lt_of_le hn hle
  have frame : Frame x (x.beforeReturn isa n) n x.graph.size := frame_beforeReturn hnx
  have hsize : (x.beforeReturn isa n).graph.size = x.graph.size + 1 := by
    simp [Exits.beforeReturn]
  have hself : IsExit isa ((x.beforeReturn isa n).graph.node n) x.graph.size := by
    rw [node_beforeReturn hnx, if_pos rfl]
    exact ⟨rfl, rfl, rfl⟩
  -- a return that was moved before is another one
  have hdone : ∀ {n'}, (n', none) ∈ (n, none) :: done → n' = n ∨ n' ≠ n ∧ (n', none) ∈ done := by
    intro n' hmem
    by_cases heq : n' = n
    · exact Or.inl heq
    · exact Or.inr ⟨heq, (List.mem_cons.mp hmem).resolve_left fun h => heq (congrArg Prod.fst h)⟩
  have hat : ∀ {k}, (n, k) ∈ (x.beforeReturn isa n).added → k = x.graph.size := by
    intro k hk
    rw [frame.added_eq] at hk
    rcases List.mem_cons.mp hk with heq | hk
    · exact congrArg Prod.snd heq
    · exact absurd hk (h.not_mem_added hnew k)
  have hne : ∀ {n'}, (n', none) ∉ (n, none) :: done → n' ≠ n := fun hn' heq =>
    hn' (heq ▸ List.mem_cons_self)
  constructor
  case size_le => exact Nat.le_trans hle frame.size_le
  case exit =>
    intro m k hk
    obtain ⟨hbounds, hexit, n', e, hd⟩ := frame.exit h hn hk
    exact ⟨hbounds, hexit, n', e, List.mem_cons_of_mem _ hd⟩
  case moved =>
    intro n' k hn' hk
    rcases hdone hn' with rfl | ⟨hne, hd⟩
    · obtain rfl := hat hk
      refine ⟨⟨hle, hsize ▸ Nat.lt_succ_self _⟩, hself, ?_⟩
      rw [node_beforeReturn hnx, if_neg (Nat.ne_of_gt hnx), if_pos rfl]
      refine ⟨?_, fun e => by cases e <;> rfl⟩
      rw [← h.body_eq hn (hnew _)]
      rfl
    · obtain ⟨⟨hlow, hlt⟩, hmoved⟩ := frame.moved h hn hne hd hk
      exact ⟨⟨hlow, Nat.lt_of_lt_of_le hlt frame.size_le⟩, hmoved⟩
  case exists_moved =>
    intro n' hn'
    rcases hdone hn' with rfl | ⟨-, hd⟩
    · exact ⟨_, frame.self_mem_added⟩
    · exact frame.exists_moved h hd
  case moved_inj =>
    intro n₁ n₂ k h₁ h₂ hk₁ hk₂
    -- where another return was moved to was there before
    have hnot : ∀ {n'}, n' ≠ n → (n', none) ∈ done → (n', k) ∈ (x.beforeReturn isa n).added →
        k ≠ x.graph.size := fun hne hd hk => Nat.ne_of_lt (frame.moved h hn hne hd hk).1.2
    rcases hdone h₁ with heq₁ | ⟨hne₁, hd₁⟩ <;> rcases hdone h₂ with heq₂ | ⟨hne₂, hd₂⟩
    · rw [heq₁, heq₂]
    · rw [heq₁] at hk₁
      exact absurd (hat hk₁) (hnot hne₂ hd₂ hk₂)
    · rw [heq₂] at hk₂
      exact absurd (hat hk₂) (hnot hne₁ hd₁ hk₁)
    · exact h.moved_inj hd₁ hd₂ (frame.mem_added_of_ne hne₁ hk₁) (frame.mem_added_of_ne hne₂ hk₂)
  case body_eq =>
    intro n' hlt hn'
    rw [frame.node_old h hlt (hne hn')]
    exact h.body_eq hlt fun hd => hn' (List.mem_cons_of_mem _ hd)
  case led =>
    intro n' m e hd
    have hd' : (n', some (m, e)) ∈ done := (List.mem_cons.mp hd).resolve_left fun h => nomatch h
    exact frame.led h (fun heq => hnew _ (heq ▸ hd')) hd'
  case kept =>
    intro n' e hlt hn' hd
    rw [frame.node_old h hlt (hne hn')]
    exact h.kept hlt (fun hd => hn' (List.mem_cons_of_mem _ hd)) fun m hm =>
      hd m (List.mem_cons_of_mem _ hm)
  case added =>
    intro n' k hk
    by_cases heq : n' = n
    · exact Or.inl (heq ▸ List.mem_cons_self)
    · rcases frame.added h (frame.mem_added_of_ne heq hk) with hd | ⟨m, e, hd, hlookup⟩
      · exact Or.inl (List.mem_cons_of_mem _ hd)
      · exact Or.inr ⟨m, e, List.mem_cons_of_mem _ hd, hlookup⟩
  case fresh =>
    intro k hlow hlt
    rw [hsize] at hlt
    rcases Nat.lt_succ_iff_lt_or_eq.mp hlt with hlt | rfl
    · exact (frame.fresh h hlow hlt).imp_right fun ⟨n', hd, hk⟩ =>
        ⟨n', List.mem_cons_of_mem _ hd, hk⟩
    · exact Or.inr ⟨n, List.mem_cons_self, frame.self_mem_added⟩

/-- An edge has been led over the exit `k` for its target, which was there before or has
been added for it. -/
structure Led (isa : InstructionSet) (x x' : Exits) (n m : NodeId) (e : Edge) (k : NodeId) : Prop
    extends Frame x x' n k where
  lookup_self : x'.exitTo.lookup m = some k
  lookup_of_ne : ∀ {m'}, m' ≠ m → x'.exitTo.lookup m' = x.exitTo.lookup m'
  lt : k < x'.graph.size
  new_eq : ∀ {j}, x.graph.size ≤ j → j < x'.graph.size → j = k
  new_exit : x.exitTo.lookup m = none → x.graph.size ≤ k ∧ IsExit isa (x'.graph.node k) m
  node_self : x'.graph.node n = (x.graph.node n).withEdge e (some k)

theorem exists_led (hn : n < x.graph.size)
    (hexit : ∀ k, x.exitTo.lookup m = some k → k < x.graph.size) (e : Edge) :
    ∃ k, Led isa x (x.onEdge isa n m e) n m e k := by
  unfold Exits.onEdge
  cases hlookup : x.exitTo.lookup m with
  | some k =>
    -- an exit leads to the target already, so only the edge changes
    refine ⟨k, ⟨rfl, ?_, fun hne hlt => ?_, fun h => h⟩, hlookup, fun _ => rfl, ?_, fun hle hlt => ?_,
      fun h => ?_, ?_⟩
    · exact Nat.le_of_eq (Graph.size_redirect ..).symm
    · rw [Graph.node_redirect, if_neg fun h => hne h.1.symm]
    · rw [Graph.size_redirect]
      exact hexit k hlookup
    · rw [Graph.size_redirect] at hlt
      exact absurd hlt (Nat.not_lt.mpr hle)
    · rw [hlookup] at h
      cases h
    · rw [Graph.node_redirect, if_pos ⟨rfl, hn⟩]
  | none =>
    -- the first edge to this target: an exit is added for it
    have hne : n ≠ x.graph.size := Nat.ne_of_lt hn
    have hlookup_of_ne : ∀ {m'}, m' ≠ m →
        ((m, x.graph.size) :: x.exitTo).lookup m' = x.exitTo.lookup m' := fun hne => by
      rw [List.lookup_cons, beq_false_of_ne hne]
    refine ⟨x.graph.size, ⟨rfl, by simp, fun hne hlt => ?_, fun {m' j} hj => ?_⟩,
      List.lookup_cons_self, hlookup_of_ne, by simp, fun hle hlt => ?_,
      fun _ => ⟨Nat.le_refl _, ?_⟩, ?_⟩
    · rw [Graph.node_redirect, if_neg fun h => hne h.1.symm, Graph.node_alloc,
        if_neg (Nat.ne_of_lt hlt)]
    · refine (hlookup_of_ne fun heq => ?_).trans hj
      rw [heq, hlookup] at hj
      cases hj
    · simp only [Graph.size_redirect, Graph.size_alloc] at hlt
      exact Nat.le_antisymm (Nat.lt_succ_iff.mp hlt) hle
    · rw [Graph.node_redirect, if_neg fun h => hne h.1, Graph.node_alloc, if_pos rfl]
      exact ⟨rfl, rfl, rfl⟩
    · rw [Graph.node_redirect, if_pos ⟨rfl, by rw [Graph.size_alloc]; exact Nat.lt_succ_of_lt hn⟩,
        Graph.node_alloc, if_neg hne]

/-- An edge is led over an exit. -/
theorem Closing.onEdge (h : Closing isa g done x) (hn : n < g.size) (hreturn : (n, none) ∉ done)
    (hnew : ∀ m, (n, some (m, e)) ∉ done) :
    Closing isa g ((n, some (m, e)) :: done) (x.onEdge isa n m e) := by
  have hle := h.size_le
  obtain ⟨k, led⟩ : ∃ k, Led isa x (x.onEdge isa n m e) n m e k :=
    exists_led (Nat.lt_of_lt_of_le hn hle) (fun k hk => (h.exit hk).1.2) e
  have frame : Frame x (x.onEdge isa n m e) n k := led.toFrame
  have hold : ∀ {d}, d ∈ done → d ∈ (n, some (m, e)) :: done := List.mem_cons_of_mem _
  have hdone : ∀ {n'}, (n', none) ∈ (n, some (m, e)) :: done → (n', none) ∈ done := fun hd =>
    (List.mem_cons.mp hd).resolve_left fun h => nomatch h
  have hne : ∀ {n'}, (n', none) ∈ done → n' ≠ n := fun hd heq => hreturn (heq ▸ hd)
  constructor
  case size_le => exact Nat.le_trans hle frame.size_le
  case exit =>
    intro m' j hj
    have hbefore : x.exitTo.lookup m' = some j → (g.size ≤ j ∧ j < (x.onEdge isa n m e).graph.size) ∧
        IsExit isa ((x.onEdge isa n m e).graph.node j) m' ∧
          ∃ n' e', (n', some (m', e')) ∈ (n, some (m, e)) :: done := fun hj => by
      obtain ⟨hbounds, hexit, n', e', hd⟩ := frame.exit h hn hj
      exact ⟨hbounds, hexit, n', e', hold hd⟩
    by_cases hm : m' = m
    · subst hm
      cases hlookup : x.exitTo.lookup m' with
      | some i =>
        obtain rfl : i = j := Option.some.inj ((frame.lookup hlookup).symm.trans hj)
        exact hbefore hlookup
      | none =>
        obtain rfl : k = j := Option.some.inj (led.lookup_self.symm.trans hj)
        obtain ⟨hlow, hexit⟩ := led.new_exit hlookup
        exact ⟨⟨Nat.le_trans hle hlow, led.lt⟩, hexit, n, e, List.mem_cons_self⟩
    · rw [led.lookup_of_ne hm] at hj
      exact hbefore hj
  case moved =>
    intro n' j hn' hj
    have hd := hdone hn'
    obtain ⟨⟨hlow, hlt⟩, hmoved⟩ := frame.moved h hn (hne hd) hd hj
    exact ⟨⟨hlow, Nat.lt_of_lt_of_le hlt frame.size_le⟩, hmoved⟩
  case exists_moved => exact fun hn' => frame.exists_moved h (hdone hn')
  case moved_inj =>
    intro n₁ n₂ j h₁ h₂ hj₁ hj₂
    exact h.moved_inj (hdone h₁) (hdone h₂) (frame.mem_added_of_ne (hne (hdone h₁)) hj₁)
      (frame.mem_added_of_ne (hne (hdone h₂)) hj₂)
  case body_eq =>
    intro n' hlt hn'
    by_cases heq : n' = n
    · rw [heq, led.node_self, Node.body_withEdge]
      exact h.body_eq hn hreturn
    · rw [frame.node_old h hlt heq]
      exact h.body_eq hlt fun hd => hn' (hold hd)
  case led =>
    intro n' m' e' hd
    rcases List.mem_cons.mp hd with heq | hd'
    · simp only [Prod.mk.injEq, Option.some.injEq] at heq
      obtain ⟨rfl, rfl, rfl⟩ := heq
      refine ⟨k, led.lookup_self, ?_, frame.self_mem_added⟩
      rw [led.node_self, Node.target_withEdge_self]
    · by_cases heq : n' = n
      · have he : e' ≠ e := fun he => hnew m' (he ▸ heq ▸ hd')
        subst heq
        obtain ⟨j, hlookup, htarget, hj⟩ := h.led hd'
        rw [led.node_self, Node.target_withEdge_of_ne _ he]
        exact ⟨j, frame.lookup hlookup, htarget, frame.mem_added hj⟩
      · exact frame.led h heq hd'
  case kept =>
    intro n' e' hlt hn' hd
    have hkept := h.kept (n := n') (e := e') hlt (fun hd => hn' (hold hd)) fun m hm => hd m (hold hm)
    by_cases heq : n' = n
    · subst heq
      have he : e' ≠ e := fun he => hd m (he ▸ List.mem_cons_self)
      rw [led.node_self, Node.target_withEdge_of_ne _ he]
      exact hkept
    · rw [frame.node_old h hlt heq]
      exact hkept
  case added =>
    intro n' j hj
    rw [frame.added_eq] at hj
    rcases List.mem_cons.mp hj with heq | hj
    · simp only [Prod.mk.injEq] at heq
      obtain ⟨rfl, rfl⟩ := heq
      exact Or.inr ⟨m, e, List.mem_cons_self, led.lookup_self⟩
    · rcases frame.added h hj with hd | ⟨m', e', hd, hlookup⟩
      · exact Or.inl (hold hd)
      · exact Or.inr ⟨m', e', hold hd, hlookup⟩
  case fresh =>
    intro j hlow hlt
    rcases Nat.lt_or_ge j x.graph.size with hjx | hjx
    · exact (frame.fresh h hlow hjx).imp_right fun ⟨n', hd, hj⟩ => ⟨n', hold hd, hj⟩
    · rw [led.new_eq hjx hlt]
      exact Or.inl ⟨m, led.lookup_self⟩

/-! ### All members -/

theorem mem_waysOut {inside : NodeId → Bool} {n n' : NodeId} {w : Option (NodeId × Edge)} :
    (n', w) ∈ waysOut isa g inside n ↔ n' = n ∧
      match w with
      | none => ((g.node n).flags isa).returns = true
      | some t => ((g.node n).flags isa).returns = false ∧ t ∈ g.edges isa n ∧
          leaves inside ((g.node n).flags isa) t = true := by
  unfold waysOut
  cases hreturns : ((g.node n).flags isa).returns with
  | true => cases w <;> simp
  | false =>
    simp only [Bool.false_eq_true, if_false, List.mem_map, List.mem_filter, Prod.mk.injEq]
    constructor
    · rintro ⟨t, ht, rfl, rfl⟩
      exact ⟨rfl, trivial, ht⟩
    · cases w with
      | none => exact fun ⟨_, h⟩ => nomatch h
      | some t => exact fun ⟨hn, _, ht⟩ => ⟨t, ht, hn.symm, rfl⟩

/-- As long as none of its ways out was closed, a member has the edges it had. -/
theorem Closing.edges_eq (h : Closing isa g done x) (hn : n < g.size) (hnew : ∀ w, (n, w) ∉ done) :
    x.graph.edges isa n = g.edges isa n := by
  have hflags := Node.flags_of_body isa (h.body_eq hn (hnew _))
  have hsuccessor : (x.graph.node n).successor = (g.node n).successor :=
    h.kept (e := .fallthrough) hn (hnew _) fun _ => hnew _
  have hbranch : (x.graph.node n).branch = (g.node n).branch :=
    h.kept (e := .branch) hn (hnew _) fun _ => hnew _
  rw [Graph.edges, Graph.edges, Graph.fallthrough?, Graph.fallthrough?, Graph.branch?, Graph.branch?,
    Node.fallsThrough, Node.fallsThrough, Node.isJump, Node.isJump, hflags, hsuccessor, hbranch]

theorem nodup_edges (isa : InstructionSet) (g : Graph) (n : NodeId) :
    ((g.edges isa n).map (·.2)).Nodup := by
  rw [Graph.edges]
  cases g.fallthrough? isa n <;> cases g.branch? isa n <;> simp

/-- Edges of one node are led over exits one after the other. -/
theorem closing_edges (hn : n < g.size) :
    ∀ {edges : List (NodeId × Edge)} {done : List WayOut} {x : Exits}, Closing isa g done x →
      (n, none) ∉ done → (edges.map (·.2)).Nodup →
      (∀ t ∈ edges, ∀ m, (n, some (m, t.2)) ∉ done) →
      Closing isa g ((edges.map fun t => (n, some t)).reverse ++ done)
        (edges.foldl (fun x t => x.onEdge isa n t.1 t.2) x)
  | [], _, _, h, _, _, _ => h
  | (m, e) :: edges, done, x, h, hreturn, hnodup, hnew => by
    rw [List.map_cons, List.nodup_cons] at hnodup
    have hstep : Closing isa g ((n, some (m, e)) :: done) (x.onEdge isa n m e) :=
      h.onEdge hn hreturn (hnew _ List.mem_cons_self)
    rw [List.map_cons, List.reverse_cons, List.append_assoc, List.foldl_cons]
    refine closing_edges hn hstep (by simpa using hreturn) hnodup.2 fun t ht m' hmem => ?_
    rcases List.mem_cons.mp hmem with heq | hmem
    · simp only [Prod.mk.injEq, Option.some.injEq, true_and] at heq
      exact hnodup.1 (List.mem_map.mpr ⟨t, ht, heq.2⟩)
    · exact hnew t (List.mem_cons_of_mem _ ht) m' hmem

theorem Closing.atMember (h : Closing isa g done x) (inside : NodeId → Bool) (hn : n < g.size)
    (hnew : ∀ w, (n, w) ∉ done) :
    Closing isa g ((waysOut isa g inside n).reverse ++ done) (x.atMember isa inside n) := by
  have hflags := Node.flags_of_body isa (h.body_eq hn (hnew _))
  simp only [Exits.atMember, waysOut, hflags, h.edges_eq hn hnew]
  cases ((g.node n).flags isa).returns with
  | true => exact h.beforeReturn hn hnew
  | false =>
    refine closing_edges hn h (hnew _) ?_ fun t _ m => hnew _
    exact (nodup_edges isa g n).sublist (List.filter_sublist.map _)

/-- **Every way out is closed**, member by member. -/
theorem closing_members (isa : InstructionSet) (g : Graph) (inside : NodeId → Bool) :
    ∀ {members : List NodeId} {done : List WayOut} {x : Exits}, Closing isa g done x →
      members.Nodup → (∀ n ∈ members, n < g.size ∧ ∀ w, (n, w) ∉ done) →
      Closing isa g ((members.flatMap (waysOut isa g inside)).reverse ++ done)
        (members.foldl (Exits.atMember isa inside) x)
  | [], _, _, h, _, _ => h
  | n :: members, done, x, h, hnodup, hnew => by
    obtain ⟨hn, hnone⟩ := hnew n List.mem_cons_self
    rw [List.nodup_cons] at hnodup
    rw [List.flatMap_cons, List.reverse_append, List.append_assoc, List.foldl_cons]
    refine closing_members isa g inside (h.atMember inside hn hnone) hnodup.2 fun n' hn' => ?_
    obtain ⟨hlt, hnone'⟩ := hnew n' (List.mem_cons_of_mem _ hn')
    refine ⟨hlt, fun w hmem => ?_⟩
    rcases List.mem_append.mp hmem with hw | hw
    · rw [List.mem_reverse, mem_waysOut] at hw
      exact hnodup.1 (hw.1 ▸ hn')
    · exact hnone' w hw

end Flattening

end Wordcode
