/-
# Deep copies

A deep copy is the part of a graph that stored edges lead to from a node, once more: the
copies stand behind what was there, one for each original, and every edge of a copy leads to
the copy of where its original leads (`Graph.Copied`). So a copy never points at an original,
loops and shared targets are copied as such, and what was there is as it was.

The copies can also be made on the way (`Graph.copyAlong`): the search adds a copy without
edges when it visits a node, and tells from the numbers it gave out what it has visited; the
edges are led in a second pass over the originals. The number of a node depends only on what
was visited before it, so at the end of the search the numbers are those of `copyFrom`, and
the second pass touches each copy once (`Graph.copyAlong_eq`).

Key definitions: `Graph.Linked`, `Graph.Copied`, `Graph.copyAlong`.
Key theorems: `Graph.bijOn_copyNumber`, `Graph.copied_copyFrom`, `Graph.copyAlong_eq`,
`Graph.copied_deep_and_into`.
-/
import Mathlib.Data.Set.Function
import Wordcode.Graph.Copy
import Wordcode.Proofs.Closing
import Wordcode.Proofs.Detours
import Wordcode.Proofs.Reachability
import Wordcode.Proofs.SameCode

namespace Wordcode

namespace Graph

variable {g source : Graph} {root n m k : NodeId} {keepHints : Bool}

/-! ### What is copied -/

/-- Stored edges lead from `root` to `n`, whether they count or not. -/
def Linked (source : Graph) (root n : NodeId) : Prop := Reach source.storedTargets [root] n

theorem mem_storedTargets :
    m ∈ source.storedTargets n ↔ ∃ e, (source.node n).target e = some m := by
  rw [storedTargets, List.mem_append, Option.mem_toList, Option.mem_toList]
  constructor
  · rintro (h | h)
    · exact ⟨.fallthrough, h⟩
    · exact ⟨.branch, h⟩
  · rintro ⟨e, h⟩
    cases e with
    | fallthrough => exact Or.inl h
    | branch => exact Or.inr h

theorem Linked.step (h : source.Linked root n) (e : Edge)
    (he : (source.node n).target e = some m) : source.Linked root m :=
  Reach.step h (mem_storedTargets.mpr ⟨e, he⟩)

section Listed

variable (hs : source.Closed) (hroot : root < source.size)
include hs

theorem Closed.lt_of_mem_storedTargets (h : m ∈ source.storedTargets n) : m < source.size := by
  obtain ⟨e, he⟩ := mem_storedTargets.mp h
  cases e with
  | fallthrough => exact hs.lt_of_successor he
  | branch => exact hs.lt_of_branch he

include hroot

theorem mem_storedReachable : n ∈ source.storedReachable root ↔ source.Linked root n :=
  mem_explore_below (List.forall_mem_singleton.mpr hroot) fun _ _ => hs.lt_of_mem_storedTargets

theorem nodup_storedReachable : (source.storedReachable root).Nodup :=
  nodup_explore_below (List.forall_mem_singleton.mpr hroot) fun _ _ => hs.lt_of_mem_storedTargets

theorem head?_storedReachable : (source.storedReachable root).head? = some root :=
  head?_explore_below (List.forall_mem_singleton.mpr hroot)
    (fun _ _ => hs.lt_of_mem_storedTargets) rfl

end Listed

/-! ### The numbers of the copies -/

section Numbers

variable {size : Nat} {copied : List NodeId}

/-- The number of the copy of `n`. -/
def copyNumber (size : Nat) (copied : List NodeId) (n : NodeId) : NodeId := size + copied.idxOf n

theorem contains_copyNumbers : (copyNumbers size copied).contains n = true ↔ n ∈ copied := by
  rw [copyNumbers, Std.HashMap.contains_ofList, List.zipIdx_map_fst, List.contains_iff_mem]

theorem copyNumbers_concat : copyNumbers size (copied ++ [n]) =
    (copyNumbers size copied).insert n (size + copied.length) := by
  rw [copyNumbers, copyNumbers, List.zipIdx_append, Std.HashMap.ofList_eq_insertMany_empty,
    Std.HashMap.insertMany_append, ← Std.HashMap.ofList_eq_insertMany_empty]
  exact Std.HashMap.insertMany_list_singleton

variable (hnd : copied.Nodup)
include hnd

theorem getElem?_copyNumbers (hn : n ∈ copied) :
    (copyNumbers size copied)[n]? = some (copyNumber size copied n) :=
  Layout.getElem?_ofList_zipIdx hnd size (List.getElem?_idxOf hn)

theorem getD_copyNumbers (hn : n ∈ copied) :
    (copyNumbers size copied).getD n 0 = copyNumber size copied n := by
  rw [Std.HashMap.getD_eq_getD_getElem?, getElem?_copyNumbers hnd hn, Option.getD_some]

theorem copyNumber_getElem {i : Nat} (hi : i < copied.length) :
    copyNumber size copied copied[i] = size + i := by
  rw [copyNumber, hnd.idxOf_getElem]

/-- **The copies are numbered one by one**, behind what was there. -/
theorem bijOn_copyNumber : Set.BijOn (copyNumber size copied) {n | n ∈ copied}
    {k | size ≤ k ∧ k < size + copied.length} := by
  refine ⟨fun n hn => ?_, fun n hn m hm heq => ?_, fun k hk => ?_⟩
  · exact ⟨Nat.le_add_right _ _, Nat.add_lt_add_left (List.idxOf_lt_length_of_mem hn) size⟩
  · exact (List.idxOf_inj hn).mp (Nat.add_left_cancel heq)
  · obtain ⟨hlow, hhigh⟩ : size ≤ k ∧ k < size + copied.length := hk
    have hi : k - size < copied.length := Nat.sub_lt_left_of_lt_add hlow hhigh
    refine ⟨copied[k - size], List.getElem_mem hi, ?_⟩
    rw [copyNumber_getElem hnd hi, Nat.add_sub_cancel' hlow]

end Numbers

/-! ### Nodes that are added -/

section Added

theorem foldl_alloc : ∀ (nodes : List Node) (g : Graph),
    nodes.foldl alloc g = ⟨g.nodes ++ nodes.toArray⟩
  | [], g => by simp
  | node :: nodes, g => by
    rw [List.foldl_cons, foldl_alloc nodes, alloc, List.push_append_toArray]

variable {nodes : List Node}

theorem size_foldl_alloc : (nodes.foldl alloc g).size = g.size + nodes.length := by
  simp [foldl_alloc, size]

theorem node_foldl_alloc_of_lt (hk : k < g.size) : (nodes.foldl alloc g).node k = g.node k := by
  simp only [foldl_alloc, node, Array.getD_eq_getD_getElem?]
  rw [Array.getElem?_append_left hk]

theorem node_foldl_alloc {i : Nat} {node : Node} (hi : nodes[i]? = some node) :
    (nodes.foldl alloc g).node (g.size + i) = node := by
  simp only [foldl_alloc, Graph.node, Array.getD_eq_getD_getElem?, size]
  rw [Array.getElem?_append_right (Nat.le_add_right _ _), Nat.add_sub_cancel_left,
    List.getElem?_toArray, hi, Option.getD_some]

end Added

/-! ### The copy -/

/-- `g'` is `g` with a copy of what stored edges of `source` lead to from `root`; the copy of
`n` is `image n`. -/
structure Copied (g source : Graph) (root : NodeId) (keepHints : Bool) (g' : Graph)
    (image : NodeId → NodeId) : Prop where
  /-- The nodes that were added are one copy of each. -/
  bijOn : Set.BijOn image {n | source.Linked root n} {k | g.size ≤ k ∧ k < g'.size}
  /-- A copy says what its original says, and leads to the copies of where that leads. -/
  node_image : ∀ n, source.Linked root n → g'.node (image n) =
    { source.node n with
      offset := none
      poolHint := if keepHints then (source.node n).poolHint else none
      successor := (source.node n).successor.map image
      branch := (source.node n).branch.map image }
  node_old : ∀ k < g.size, g'.node k = g.node k
  /-- No copy leads back to what was there. -/
  separate : ∀ k m e, g.size ≤ k → (g'.node k).target e = some m → g.size ≤ m ∧ m < g'.size

theorem bind_copyNumbers {size : Nat} {copied : List NodeId} (hnd : copied.Nodup)
    {target : Option NodeId} (h : ∀ m, target = some m → m ∈ copied) :
    target.bind ((copyNumbers size copied)[·]?) = target.map (copyNumber size copied) := by
  cases target with
  | none => rfl
  | some m => rw [Option.bind_some, Option.map_some, getElem?_copyNumbers hnd (h m rfl)]

/-- No copy leads back, if each leads to copies. -/
theorem separate_of_image {g' : Graph} {image : NodeId → NodeId}
    (hbij : Set.BijOn image {n | source.Linked root n} {k | g.size ≤ k ∧ k < g'.size})
    (htarget : ∀ n, source.Linked root n → ∀ e,
      (g'.node (image n)).target e = ((source.node n).target e).map image)
    (e : Edge) (hk : g.size ≤ k) (he : (g'.node k).target e = some m) :
    g.size ≤ m ∧ m < g'.size := by
  obtain ⟨n, hn, rfl⟩ := hbij.surjOn ⟨hk, lt_of_target he⟩
  have hlinked : source.Linked root n := hn
  rw [htarget n hlinked] at he
  obtain ⟨m, hm, rfl⟩ := Option.map_eq_some_iff.mp he
  exact hbij.mapsTo (hlinked.step e hm)

section Copy

/-- The number of the copy of `n` in `g`. -/
def imageIn (g source : Graph) (root n : NodeId) : NodeId :=
  copyNumber g.size (source.storedReachable root) n

variable (hs : source.Closed) (hroot : root < source.size)
include hs hroot

theorem imageIn_root (g : Graph) : g.imageIn source root root = g.size := by
  obtain ⟨copied, hcopied⟩ := List.head?_eq_some_iff.mp (head?_storedReachable hs hroot)
  rw [imageIn, copyNumber, hcopied, List.idxOf_cons_self, Nat.add_zero]

theorem bijOn_imageIn (g : Graph) (keepHints : Bool) :
    Set.BijOn (g.imageIn source root) {n | source.Linked root n}
      {k | g.size ≤ k ∧ k < (g.copyFrom source root keepHints).1.size} := by
  have hbij := @bijOn_copyNumber g.size _ (nodup_storedReachable hs hroot)
  simp only [mem_storedReachable hs hroot] at hbij
  rw [copyFrom, size_foldl_alloc, List.length_map]
  exact hbij

theorem node_imageIn (g : Graph) (keepHints : Bool) (hn : source.Linked root n) :
    (g.copyFrom source root keepHints).1.node (g.imageIn source root n) =
      { source.node n with
        offset := none
        poolHint := if keepHints then (source.node n).poolHint else none
        successor := (source.node n).successor.map (g.imageIn source root)
        branch := (source.node n).branch.map (g.imageIn source root) } := by
  have hnd := nodup_storedReachable hs hroot
  have hmem : ∀ {n}, source.Linked root n → n ∈ source.storedReachable root :=
    (mem_storedReachable hs hroot).mpr
  have hsuccessor : ∀ m, (source.node n).successor = some m → m ∈ source.storedReachable root :=
    fun m h => hmem (hn.step .fallthrough h)
  have hbranch : ∀ m, (source.node n).branch = some m → m ∈ source.storedReachable root :=
    fun m h => hmem (hn.step .branch h)
  have hat := List.getElem?_idxOf (hmem hn)
  rw [copyFrom, imageIn, copyNumber,
    node_foldl_alloc (by rw [List.getElem?_map, hat, Option.map_some]), copyNode,
    bind_copyNumbers hnd hsuccessor, bind_copyNumbers hnd hbranch]
  rfl

theorem copied_copyFrom (g : Graph) (keepHints : Bool) :
    Copied g source root keepHints (g.copyFrom source root keepHints).1
      (g.imageIn source root) where
  bijOn := bijOn_imageIn hs hroot g keepHints
  node_image := fun n hn => node_imageIn hs hroot g keepHints hn
  node_old := fun k hk => node_foldl_alloc_of_lt hk
  separate := fun k m e hk he =>
    separate_of_image (bijOn_imageIn hs hroot g keepHints) (fun n hn e => by
      rw [node_imageIn hs hroot g keepHints hn]
      cases e <;> rfl) e hk he

end Copy

/-! ### Copies made on the way -/

/-- What a search that copies keeps: the number of the copy of each visited node, the visited
nodes, and the graph with the copies. -/
structure Copying where
  numbers : Std.HashMap NodeId NodeId := ∅
  originals : Array NodeId := #[]
  graph : Graph

/-- Adds a copy of `n` without edges. -/
def Copying.visit (source : Graph) (keepHints : Bool) (s : Copying) (n : NodeId) : Copying where
  numbers := s.numbers.insert n s.graph.size
  originals := s.originals.push n
  graph := s.graph.alloc (copyNode (fun _ => none) keepHints (source.node n))

/-- Leads the edges of the copy of `n` to the copies of where those of `n` lead. -/
def linkCopy (source : Graph) (numbers : Std.HashMap NodeId NodeId) (g : Graph) (n : NodeId) :
    Graph :=
  g.modify (numbers.getD n 0) fun node =>
    { node with
      successor := (source.node n).successor.bind (numbers[·]?)
      branch := (source.node n).branch.bind (numbers[·]?) }

/-- A deep copy in two passes: the search adds the copies, and then their edges are led. -/
def copyAlong (g source : Graph) (root : NodeId) (keepHints : Bool) : Graph × NodeId :=
  let s := exploreInto source.storedTargets (fun s n => s.numbers.contains n)
    (Copying.visit source keepHints) source.size [root] { graph := g }
  (s.originals.foldl (linkCopy source s.numbers) s.graph, s.numbers.getD root 0)

/-- What is kept when `originals` were visited. -/
def copyingOf (g source : Graph) (keepHints : Bool) (originals : Array NodeId) : Copying where
  numbers := copyNumbers g.size originals.toList
  originals := originals
  graph := (originals.toList.map fun n => copyNode (fun _ => none) keepHints (source.node n)).foldl
    alloc g

theorem visit_copyingOf (originals : Array NodeId) (n : NodeId) :
    Copying.visit source keepHints (copyingOf g source keepHints originals) n =
      copyingOf g source keepHints (originals.push n) := by
  simp only [Copying.visit, copyingOf, Array.toList_push, List.map_append, List.foldl_append,
    copyNumbers_concat, size_foldl_alloc, List.length_map, List.map_cons, List.map_nil,
    List.foldl_cons, List.foldl_nil]

theorem exploreInto_copying (g source : Graph) (root : NodeId) (keepHints : Bool) :
    exploreInto source.storedTargets (fun s n => s.numbers.contains n)
      (Copying.visit source keepHints) source.size [root] { graph := g } =
    copyingOf g source keepHints (source.storedReachable root).toArray := by
  have hrun := exploreInto_eq source.storedTargets (fun s n => s.numbers.contains n)
    (Copying.visit source keepHints) (copyingOf g source keepHints)
    (fun found n => contains_copyNumbers) visit_copyingOf source.size [root] ∅ #[] (by simp)
  rw [storedReachable, explore, Array.toArray_toList, ← hrun]
  rfl

section Links

variable {numbers : Std.HashMap NodeId NodeId}

theorem size_foldl_linkCopy : ∀ (originals : List NodeId) (g : Graph),
    (originals.foldl (linkCopy source numbers) g).size = g.size
  | [], _ => rfl
  | n :: originals, g => by
    rw [List.foldl_cons, size_foldl_linkCopy originals, linkCopy, size_modify]

theorem node_foldl_linkCopy_of_ne : ∀ (originals : List NodeId) (g : Graph),
    (∀ n ∈ originals, numbers.getD n 0 ≠ k) →
      (originals.foldl (linkCopy source numbers) g).node k = g.node k
  | [], _, _ => rfl
  | n :: originals, g, h => by
    obtain ⟨hn, hrest⟩ := List.forall_mem_cons.mp h
    rw [List.foldl_cons, node_foldl_linkCopy_of_ne originals _ hrest, linkCopy, node_modify,
      if_neg fun hk => hn hk.1]

theorem node_foldl_linkCopy : ∀ (originals : List NodeId) (g : Graph),
    (originals.map fun n => numbers.getD n 0).Nodup → n ∈ originals → numbers.getD n 0 < g.size →
      (originals.foldl (linkCopy source numbers) g).node (numbers.getD n 0) =
        { g.node (numbers.getD n 0) with
          successor := (source.node n).successor.bind (numbers[·]?)
          branch := (source.node n).branch.bind (numbers[·]?) }
  | m :: originals, g, hnd, hn, hlt => by
    rw [List.map_cons, List.nodup_cons] at hnd
    obtain ⟨hm, hrest⟩ := hnd
    rw [List.foldl_cons]
    rcases List.mem_cons.mp hn with rfl | hn
    · have hne : ∀ n' ∈ originals, numbers.getD n' 0 ≠ numbers.getD n 0 := fun n' hn' heq =>
        hm (List.mem_map.mpr ⟨n', hn', heq⟩)
      rw [node_foldl_linkCopy_of_ne originals _ hne, linkCopy, node_modify, if_pos ⟨rfl, hlt⟩]
    · have hne : numbers.getD m 0 ≠ numbers.getD n 0 := fun heq =>
        hm (List.mem_map.mpr ⟨n, hn, heq.symm⟩)
      have hlt' : numbers.getD n 0 < (linkCopy source numbers g m).size := by
        rwa [linkCopy, size_modify]
      rw [node_foldl_linkCopy originals _ hrest hn hlt', linkCopy, node_modify,
        if_neg fun hk => hne hk.1]

end Links

/-- The second pass gives the copies that were made in the first the edges that they would have
been made with. -/
theorem foldl_linkCopy_eq {copied : List NodeId} (hnd : copied.Nodup) (g source : Graph)
    (keepHints : Bool) :
    copied.foldl (linkCopy source (copyNumbers g.size copied))
        ((copied.map fun n => copyNode (fun _ => none) keepHints (source.node n)).foldl alloc g) =
      (copied.map fun n => copyNode ((copyNumbers g.size copied)[·]?) keepHints
        (source.node n)).foldl alloc g := by
  have hbij := @bijOn_copyNumber g.size copied hnd
  have hnumber : ∀ n ∈ copied, (copyNumbers g.size copied).getD n 0 = copyNumber g.size copied n :=
    fun n hn => getD_copyNumbers hnd hn
  have hnumbers : (copied.map fun n => (copyNumbers g.size copied).getD n 0).Nodup := by
    rw [List.map_congr_left hnumber]
    exact List.Nodup.map_on (fun n hn m hm heq => hbij.injOn hn hm heq) hnd
  refine eq_of_node ?_ fun k hk => ?_
  · rw [size_foldl_linkCopy, size_foldl_alloc, size_foldl_alloc, List.length_map, List.length_map]
  rw [size_foldl_alloc, List.length_map] at hk
  rcases Nat.lt_or_ge k g.size with hold | hnew
  · have hne : ∀ n ∈ copied, (copyNumbers g.size copied).getD n 0 ≠ k := fun n hn heq => by
      rw [hnumber n hn] at heq
      exact Nat.lt_irrefl _ (Nat.lt_of_lt_of_le (heq ▸ hold) (hbij.mapsTo hn).1)
    rw [node_foldl_linkCopy_of_ne copied _ hne, node_foldl_alloc_of_lt hold,
      node_foldl_alloc_of_lt hold]
  · obtain ⟨n, hn, rfl⟩ := hbij.surjOn ⟨hnew, hk⟩
    have hat : copied[copied.idxOf n]? = some n := List.getElem?_idxOf hn
    have hlt : (copyNumbers g.size copied).getD n 0 <
        ((copied.map fun n => copyNode (fun _ => none) keepHints (source.node n)).foldl alloc
          g).size := by
      rw [hnumber n hn, size_foldl_alloc, List.length_map]
      exact hk
    have hlinked := @node_foldl_linkCopy source n _ copied _ hnumbers hn hlt
    rw [hnumber n hn] at hlinked
    rw [hlinked, copyNumber, node_foldl_alloc (by rw [List.getElem?_map, hat, Option.map_some]),
      node_foldl_alloc (by rw [List.getElem?_map, hat, Option.map_some])]
    rfl

/-- **Two passes make the same copy.** -/
theorem copyAlong_eq (hs : source.Closed) (hroot : root < source.size) (g : Graph)
    (keepHints : Bool) :
    g.copyAlong source root keepHints = g.copyFrom source root keepHints := by
  have hnd := nodup_storedReachable hs hroot
  have hmem : root ∈ source.storedReachable root :=
    (mem_storedReachable hs hroot).mpr (.root List.mem_cons_self)
  have hnumber : (copyNumbers g.size (source.storedReachable root)).getD root 0 = g.size :=
    (getD_copyNumbers hnd hmem).trans (imageIn_root hs hroot g)
  rw [copyAlong, exploreInto_copying, copyFrom]
  simp only [copyingOf, ← Array.foldl_toList, foldl_linkCopy_eq hnd, hnumber]

/-- **A deep copy is the same code once more, and separate.** It returns the copy of its root,
whether it is made in the graph of its originals, which keeps their pool indices, or in another
graph, which drops them; and it does not matter if it is made in one pass or in two. -/
theorem copied_deep_and_into (hs : source.Closed) (hroot : root < source.size) (g : Graph) :
    (∃ image, Copied source source root true (source.copyDeep root).1 image ∧
      (source.copyDeep root).2 = image root) ∧
    (∃ image, Copied g source root false (g.copyFrom source root false).1 image ∧
      (g.copyFrom source root false).2 = image root) ∧
    ∀ keepHints, g.copyAlong source root keepHints = g.copyFrom source root keepHints :=
  ⟨⟨_, copied_copyFrom hs hroot source true, (imageIn_root hs hroot source).symm⟩,
    ⟨_, copied_copyFrom hs hroot g false, (imageIn_root hs hroot g).symm⟩,
    copyAlong_eq hs hroot g⟩

/-- The copy of a loop is a loop of copies, also where both of its nodes lead to a third. -/
theorem copied_deep_and_into_loop :
    let source : Graph := ⟨#[
      { opcode := ⟨93⟩, operand := .jump, successor := some 1, branch := some 2 },
      { opcode := ⟨113⟩, operand := .jump, successor := some 2, branch := some 0 },
      { opcode := ⟨83⟩ }]⟩
    let g := (source.copyDeep 0).1
    let head := (source.copyDeep 0).2
    (source.Closed ∧ 0 < source.size) ∧
      ∃ body exit, 3 ≤ head ∧ 3 ≤ body ∧ 3 ≤ exit ∧
        (g.node head).successor = some body ∧ (g.node head).branch = some exit ∧
        (g.node body).successor = some exit ∧ (g.node body).branch = some head := by
  intro source g head
  have hs : source.Closed := by decide
  have hroot : 0 < source.size := by decide
  obtain ⟨⟨image, h, hhead⟩, -⟩ := copied_deep_and_into hs hroot source
  replace hhead : head = image 0 := hhead
  have hzero : source.Linked 0 0 := .root List.mem_cons_self
  have hone : source.Linked 0 1 := hzero.step .fallthrough rfl
  have htwo : source.Linked 0 2 := hzero.step .branch rfl
  rw [hhead]
  refine ⟨⟨hs, hroot⟩, image 1, image 2, (h.bijOn.mapsTo hzero).1, (h.bijOn.mapsTo hone).1,
    (h.bijOn.mapsTo htwo).1, ?_, ?_, ?_, ?_⟩
  · rw [h.node_image 0 hzero]
    rfl
  · rw [h.node_image 0 hzero]
    rfl
  · rw [h.node_image 1 hone]
    rfl
  · rw [h.node_image 1 hone]
    rfl

end Graph

end Wordcode
