import Conform.Proofs.Tree.Ascents
import Conform.Proofs.Tree.Outlines
import Conform.Proofs.Tree.Visits
/-!
# Ways

The names that lead down to a node. In the outline of a tree they are listed
node by node in pre-order, and the list is that of the paths of the tree's own
nodes, so what comes first by the one comes first by the other. The ways to the
leaves, each with what the leaf carries, are those of the tree's own leaves.
-/

namespace Conform

universe u

open Conform.Tree (root)

namespace Forest

variable {P : Type u}

/-- The names that lead to each node of a row, in pre-order. -/
def ways : Forest (Label P) → List (List String)
  | .nil => []
  | .cons label below rest =>
    [label.title] :: (below.ways.map (label.title :: ·) ++ rest.ways)

theorem ways_eq (forest : Forest (Label P)) :
    forest.ways = forest.trees.flatMap fun tree =>
      ([] :: tree.2.ways).map (tree.1.title :: ·) := by
  induction forest with
  | nil => rfl
  | cons label below rest _ ih =>
    rw [ways, ih, trees_cons, List.flatMap_cons, List.map_cons, List.cons_append]

theorem mem_ways_of_mem_trees {forest : Forest (Label P)} {tree : Label P × Forest (Label P)}
    (htree : tree ∈ forest.trees) {rest : List String} (hrest : rest ∈ [] :: tree.2.ways) :
    tree.1.title :: rest ∈ forest.ways := by
  rw [ways_eq, List.mem_flatMap]
  exact ⟨tree, htree, List.mem_map_of_mem hrest⟩

theorem path_ne_empty_of_mem_ways {forest : Forest (Label P)} {names : List String}
    (h : names ∈ forest.ways) : (⟨names⟩ : Path) ≠ .empty := by
  rw [ways_eq, List.mem_flatMap] at h
  obtain ⟨tree, _, hnames⟩ := h
  obtain ⟨rest, _, rfl⟩ := List.mem_map.mp hnames
  simp [Path.empty]

end Forest

theorem Outline.mem_ways_of_at? {P : Type u} {outline place : Outline P} {names : List String}
    (h : outline.at? names = some place) : names ∈ [] :: outline.below.ways := by
  induction names generalizing outline with
  | nil => exact List.mem_cons_self
  | cons name rest ih =>
    rw [at?_cons] at h
    obtain ⟨tree, htree, hplace⟩ := Option.bind_eq_some_iff.mp h
    have htitle : tree.1.title = name := by
      rw [Label.title, Forest.name?_of_named? htree]
      rfl
    rw [← htitle]
    apply List.mem_cons_of_mem
    exact Forest.mem_ways_of_mem_trees (Forest.mem_trees_of_named? htree) (ih hplace)

namespace Tree.Linked

variable {P : Type u} {tree : Tree P}

theorem pathFrom?_of_found (h : tree.Linked) {id parent : NodeId}
    (hlink : tree.parent? id = some parent) {path : Path}
    (hpath : tree.pathFrom? root parent = some path) {node : Node P}
    (found : tree.find? id = some node) :
    tree.pathFrom? root id = some (path.append node.toLabel.title) := by
  rw [h.pathFrom?_of_ne hlink (h.ne_root_of_parent? hlink), hpath, title_of_find? found]
  rfl

theorem pathFrom?_spans (h : tree.Linked) {ids : List NodeId} {forest : Forest (NodeId × Node P)}
    (hspan : tree.Spans ids forest) {parent : NodeId}
    (hids : ∀ id ∈ ids, tree.parent? id = some parent) {path : Path}
    (hpath : tree.pathFrom? root parent = some path) :
    forest.numbers.map (tree.pathFrom? root) =
      (forest.map (·.2.toLabel)).ways.map fun names => some (path.appendAll names) := by
  induction hspan generalizing parent path with
  | nil => rfl
  | @cons id node rest below others found _ _ ihdown ihright =>
    have hid := h.pathFrom?_of_found (hids id List.mem_cons_self) hpath found
    have hbelow := ihdown (fun child hchild => (h.mem_children_iff id child).mp
      (by rwa [children_of_find? found])) hid
    have hrest := ihright (fun other hother => hids other (List.mem_cons_of_mem _ hother)) hpath
    rw [Forest.numbers_cons, List.map_cons, List.map_append, hid, hbelow, hrest, Forest.map,
      Forest.ways, List.map_cons, List.map_append, List.map_map]
    simp [Path.append, Path.appendAll]

theorem pathFrom?_descendants (h : tree.Linked) :
    (tree.descendants root).map (tree.pathFrom? root) =
      ([] :: (tree.labelsBelow root).ways).map fun names => some ⟨names⟩ := by
  obtain ⟨node, hnode⟩ := contains_iff.mp h.contains_root
  have hroot := h.pathFrom?_self h.contains_root
  have hbelow := h.pathFrom?_spans (h.spans_children root)
    (fun child hchild => (h.mem_children_iff root child).mp hchild) hroot
  rw [h.descendants_eq hnode, List.map_cons, hbelow, hroot, labelsBelow]
  rfl

end Tree.Linked

/-! ## Ways to leaves -/

section Tips

variable {P : Type u}

def Forest.tips : Forest (Label P) → List (List String × P)
  | .nil => []
  | .cons label .nil rest => ([label.title], label.payload) :: rest.tips
  | .cons label below rest =>
    below.tips.map (fun tip => (label.title :: tip.1, tip.2)) ++ rest.tips

/-- The ways to the leaves of an outline; the root is one when nothing is below it. -/
def Outline.tips (outline : Outline P) : List (List String × P) :=
  if outline.below.isEmpty then [([], outline.root.payload)] else outline.below.tips

namespace Tree

variable {tree : Tree P}

/-- Where a node is below the root, and what it carries. -/
def place (tree : Tree P) (id : NodeId) : Option Path × Option P :=
  (tree.pathFrom? root id, tree.payload? id)

namespace Linked

theorem places_spans (h : tree.Linked) {ids : List NodeId} {forest : Forest (NodeId × Node P)}
    (hspan : tree.Spans ids forest) {parent : NodeId}
    (hids : ∀ id ∈ ids, tree.parent? id = some parent) {path : Path}
    (hpath : tree.pathFrom? root parent = some path) :
    (forest.numbers.filter tree.isLeaf).map tree.place =
      (forest.map (·.2.toLabel)).tips.map fun tip => (some (path.appendAll tip.1), some tip.2) := by
  induction hspan generalizing parent path with
  | nil => rfl
  | @cons id node rest below others found down _ ihdown ihright =>
    have hid := h.pathFrom?_of_found (hids id List.mem_cons_self) hpath found
    have hbelow := ihdown (fun child hchild => (h.mem_children_iff id child).mp
      (by rwa [children_of_find? found])) hid
    have hrest := ihright (fun other hother => hids other (List.mem_cons_of_mem _ hother)) hpath
    have hroots := down.roots_fst
    rw [Forest.numbers_cons, List.filter_cons, List.filter_append, isLeaf,
      children_of_find? found, Forest.map]
    cases below with
    | nil =>
      rw [← hroots]
      simp only [Forest.roots, List.map_nil, List.isEmpty_nil, if_true, List.map_cons,
        List.map_append, hrest, Forest.map, Forest.tips]
      simp [place, hid, payload?, found, Path.append, Path.appendAll, Forest.numbers,
        Forest.preorder]
    | cons first downs rights =>
      rw [← hroots]
      simp only [Forest.roots, List.map_cons, List.isEmpty_cons, Bool.false_eq_true, if_false,
        List.map_append, hbelow, hrest, Forest.map, Forest.tips, List.map_map]
      simp [Path.append, Path.appendAll]

/-- The leaves of a tree, in pre-order, are at the ways of its outline. -/
theorem places_leaves (h : tree.Linked) {outline : Outline P}
    (houtline : tree.outline? root = some outline) :
    tree.leaves.map tree.place = outline.tips.map fun tip => (some ⟨tip.1⟩, some tip.2) := by
  obtain ⟨node, hnode, rfl⟩ := Option.map_eq_some_iff.mp houtline
  have hspan := h.spans_children root
  have hroot := h.pathFrom?_self h.contains_root
  have hbelow := h.places_spans hspan
    (fun child hchild => (h.mem_children_iff root child).mp hchild) hroot
  have hempty := h.isLeaf_of_outline? houtline
  rw [leaves, h.descendants_eq hnode, List.filter_cons, hempty, Outline.tips]
  cases hleaf : (tree.labelsBelow root).isEmpty with
  | true =>
    have hnil : tree.branches (tree.children root) = .nil := by
      rw [labelsBelow, Forest.isEmpty_map] at hleaf
      exact (Forest.isEmpty_iff _).mp hleaf
    simp [hnil, Forest.numbers, Forest.preorder, place, hroot, payload?, hnode, Path.empty]
  | false =>
    simp only [Bool.false_eq_true, if_false]
    rw [hbelow, labelsBelow]
    rfl

end Linked

end Tree

end Tips

end Conform
