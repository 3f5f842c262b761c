import Conform.Proofs.Tree.Ascents
import Conform.Proofs.Tree.Outlines
/-!
# Addresses

A path is followed downward from a start, at each step to the first child of a
name, and read upward from the node it leads to. What was followed is what is
read. When every node but the root has a name that none of its siblings has,
what is read can be followed too, so that paths tell nodes apart and one path
begins with another exactly when its node is at or below the other's.
-/

namespace Conform.Tree

universe u

variable {P : Type u} {tree : Tree P}

theorem follow?_append (tree : Tree P) (id : NodeId) (names rest : List String) :
    tree.follow? id (names ++ rest) = (tree.follow? id names).bind (tree.follow? · rest) := by
  induction names generalizing id with
  | nil => rfl
  | cons name names ih =>
    rw [List.cons_append, follow?, follow?]
    cases tree.childNamed? id name with
    | none => rfl
    | some child => exact ih child

theorem mem_children_of_childNamed? {id child : NodeId} {name : String}
    (h : tree.childNamed? id name = some child) :
    child ∈ tree.children id ∧ tree.title child = name := by
  have htest := List.find?_some h
  have hname : tree.name? child = some name := eq_of_beq htest
  exact ⟨List.mem_of_find?_eq_some h, by rw [title, hname, Option.getD_some]⟩

namespace Linked

variable {ancestor id parent : NodeId}

theorem path_of_follow? (h : tree.Linked) {names : List String}
    (hancestor : tree.contains ancestor = true) (hfound : tree.follow? ancestor names = some id) :
    tree.Above ancestor id ∧ tree.path id = (tree.path ancestor).appendAll names := by
  induction names generalizing ancestor with
  | nil =>
    cases hfound
    exact ⟨.self, by simp [Path.appendAll]⟩
  | cons name rest ih =>
    rw [follow?] at hfound
    cases hchild : tree.childNamed? ancestor name with
    | none => simp [hchild] at hfound
    | some child =>
      simp only [hchild] at hfound
      obtain ⟨hmem, htitle⟩ := mem_children_of_childNamed? hchild
      have hlink := (h.mem_children_iff ancestor child).mp hmem
      obtain ⟨habove, hpath⟩ := ih (h.contains_child hmem) hfound
      have hstep : tree.Above ancestor child := .child hlink .self
      refine ⟨hstep.trans habove, ?_⟩
      rw [hpath, h.path_child hlink, htitle]
      simp [Path.append, Path.appendAll]

theorem pathFrom?_of_resolve? (h : tree.Linked) {path : Path}
    (hfound : tree.resolve? ancestor path = some id) :
    tree.pathFrom? ancestor id = some path := by
  rw [resolve?] at hfound
  split at hfound
  · next hancestor =>
    have hid := h.contains_of_follow? hancestor hfound
    exact (h.pathFrom?_eq_some_iff hid).mpr (h.path_of_follow? hancestor hfound)
  · cases hfound

end Linked

/-! ## Named trees -/

namespace Named

variable {ancestor id other parent : NodeId}

theorem childNamed?_title (hnamed : tree.Named) (h : tree.Linked)
    (hlink : tree.parent? id = some parent) :
    tree.childNamed? parent (tree.title id) = some id := by
  obtain ⟨name, hname⟩ :=
    hnamed.exists_name (contains_of_parent? hlink) (h.ne_root_of_parent? hlink)
  have htitle : tree.name? id = some (tree.title id) := by rw [title, hname, Option.getD_some]
  exact find?_of_nodup (hnamed.nodup_names parent) ((h.mem_children_iff parent id).mpr hlink) htitle

theorem resolve?_of_pathFrom? (hnamed : tree.Named) (h : tree.Linked)
    (hancestor : tree.contains ancestor = true) (hid : tree.contains id = true) {path : Path}
    (hpath : tree.pathFrom? ancestor id = some path) : tree.resolve? ancestor path = some id := by
  rw [resolve?, if_pos hancestor]
  have habove := ((h.pathFrom?_eq_some_iff hid).mp hpath).1
  induction habove generalizing path with
  | self =>
    rw [h.pathFrom?_self hancestor] at hpath
    cases hpath
    rfl
  | @child id parent link up ih =>
    rw [h.pathFrom?_of_ne link (h.ne_of_above_parent link up)] at hpath
    obtain ⟨before, hbefore, rfl⟩ := Option.map_eq_some_iff.mp hpath
    rw [Path.append_segments, follow?_append, ih (h.contains_parent link) hbefore, Option.bind_some]
    simp only [follow?, hnamed.childNamed?_title h link]

/-- Nodes of one path are one node: the root's name before it, the path can be followed. -/
theorem eq_of_path_eq (hnamed : tree.Named) (h : tree.Linked) (hid : tree.contains id = true)
    (hother : tree.contains other = true) (hsame : tree.path id = tree.path other) : id = other := by
  have hroot : ∀ {id}, tree.contains id = true → tree.Above root id := fun hid =>
    (h.isAbove_iff hid).mp (h.root_isAbove hid)
  obtain ⟨path, hfrom, hpath⟩ := h.exists_pathFrom? hid (hroot hid)
  obtain ⟨path', hfrom', hpath'⟩ := h.exists_pathFrom? hother (hroot hother)
  rw [← hsame, hpath, Path.appendAll_inj] at hpath'
  rw [← hpath'] at hfrom'
  have hfound := hnamed.resolve?_of_pathFrom? h h.contains_root hid hfrom
  rw [hnamed.resolve?_of_pathFrom? h h.contains_root hother hfrom'] at hfound
  exact (Option.some.inj hfound).symm

theorem startsWith_path_iff (hnamed : tree.Named) (h : tree.Linked)
    (hancestor : tree.contains ancestor = true) (hid : tree.contains id = true) :
    (tree.path id).startsWith (tree.path ancestor) = true ↔ tree.Above ancestor id := by
  constructor
  · intro hbegins
    obtain ⟨other, habove, hsame⟩ :=
      h.exists_above_of_startsWith hid (h.path_ne_empty hancestor) hbegins
    rwa [← hnamed.eq_of_path_eq h (h.contains_of_above hid habove) hancestor hsame]
  · intro habove
    obtain ⟨rest, _, hpath⟩ := h.exists_pathFrom? hid habove
    rw [Path.startsWith_iff, hpath]
    exact List.prefix_append _ _

end Named

/-- A path that leads from one node to another is read back from the other one up to the first. When
every node but the root has a name that none of its siblings has, a path that is read up to a node
leads down from it, different nodes have different paths, and the path of a node begins with that of
another exactly when the other is the node or above it. -/
theorem resolve?_matches_pathFrom? {good : P → Prop} (hreach : Reachable good tree)
    {ancestor id : NodeId} (hancestor : tree.contains ancestor = true)
    (hid : tree.contains id = true) :
    (∀ path, tree.resolve? ancestor path = some id → tree.pathFrom? ancestor id = some path) ∧
    (tree.Named →
      (∀ path, tree.pathFrom? ancestor id = some path → tree.resolve? ancestor path = some id) ∧
      (ancestor ≠ id → tree.path ancestor ≠ tree.path id) ∧
      ((tree.path id).startsWith (tree.path ancestor) = true ↔ tree.Above ancestor id)) := by
  have h := hreach.linked
  refine ⟨fun path => h.pathFrom?_of_resolve?, fun hnamed => ⟨fun path => ?_, ?_, ?_⟩⟩
  · exact hnamed.resolve?_of_pathFrom? h hancestor hid
  · exact fun hne hsame => hne (hnamed.eq_of_path_eq h hancestor hid hsame)
  · exact hnamed.startsWith_path_iff h hancestor hid

private def inn : Tree Nat :=
  ofOutline ⟨⟨some "inn", 0⟩,
    .cons ⟨some "hall", 1⟩ (.cons ⟨some "bed", 2⟩ .nil .nil)
      (.cons ⟨some "room", 3⟩ (.cons ⟨some "hall", 4⟩ (.cons ⟨some "bed", 5⟩ .nil .nil) .nil) .nil)⟩

theorem resolve?_matches_pathFrom?_inn :
    Reachable (fun _ => True) inn ∧ inn.contains 3 = true ∧ inn.contains 5 = true ∧ inn.Named ∧
    inn.pathFrom? 3 5 = some ⟨["hall", "bed"]⟩ ∧ inn.resolve? 3 ⟨["hall", "bed"]⟩ = some 5 ∧
    inn.path 2 ≠ inn.path 5 ∧ inn.Above 3 5 ∧
    ¬(inn.path 5).startsWith (inn.path 1) = true ∧ ¬inn.Above 1 5 := by
  have hreach : Reachable (fun _ => True) inn := reachable_ofOutline _ trivial fun _ _ => trivial
  have hnamed : inn.Named := by decide
  have hbed : inn.contains 5 = true := rfl
  obtain ⟨hread, hother⟩ := resolve?_matches_pathFrom? hreach (show inn.contains 3 = true from rfl) hbed
  obtain ⟨hfollow, _, hbegins⟩ := hother hnamed
  obtain ⟨_, hdiffer, _⟩ :=
    (resolve?_matches_pathFrom? hreach (show inn.contains 2 = true from rfl) hbed).2 hnamed
  obtain ⟨_, _, houtside⟩ :=
    (resolve?_matches_pathFrom? hreach (show inn.contains 1 = true from rfl) hbed).2 hnamed
  have hapart : ¬(inn.path 5).startsWith (inn.path 1) = true := by decide
  exact ⟨hreach, rfl, hbed, hnamed, hread _ rfl, hfollow _ rfl, hdiffer (by decide),
    hbegins.mp (by decide), hapart, fun habove => hapart (houtside.mpr habove)⟩

end Conform.Tree
