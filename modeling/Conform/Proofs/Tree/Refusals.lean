import Conform.Proofs.Tree.Reparenting
import Conform.Proofs.Tree.Replacement
/-!
# Refused operations

An operation that fails leaves the tree as it is. For those that check all they
need before they change anything this can be seen from each of them alone. A
replacement removes nodes before it grafts, and the graft can fail: but the
removal leaves the parent in the tree, and a tree without a root has no name
by which anything would be removed.
-/

namespace Conform.Tree

universe u v

variable {P : Type u} {Answer : Type v} {tree : Tree P}

/-- The outcome of an operation that is refused in some cases and then leaves the tree as it is. -/
structure RefusedWhen (tree : Tree P) (outcome : Tree P × Except Failure Answer) (refused : Prop) :
    Prop where
  fails_iff : (∃ failure, outcome.2 = .error failure) ↔ refused
  keeps {failure : Failure} (fails : outcome.2 = .error failure) : outcome.1 = tree

namespace RefusedWhen

variable {outcome : Tree P × Except Failure Answer} {refused : Prop}

theorem of_cases (hfail : refused → ∃ failure, outcome = (tree, .error failure))
    (hpass : ¬refused → ∃ later answer, outcome = (later, .ok answer)) :
    tree.RefusedWhen outcome refused := by
  by_cases hrefused : refused
  · obtain ⟨failure, rfl⟩ := hfail hrefused
    exact ⟨⟨fun _ => hrefused, fun _ => ⟨failure, rfl⟩⟩, fun _ => rfl⟩
  · obtain ⟨later, answer, rfl⟩ := hpass hrefused
    exact ⟨⟨nofun, fun h => absurd h hrefused⟩, nofun⟩

theorem congr {refused' : Prop} (h : tree.RefusedWhen outcome refused) (hiff : refused ↔ refused') :
    tree.RefusedWhen outcome refused' :=
  ⟨h.fails_iff.trans hiff, h.keeps⟩

theorem addChild (tree : Tree P) (parent : NodeId) (name : String) (payload : P) :
    tree.RefusedWhen (tree.addChild parent name payload) (¬tree.contains parent = true) := by
  apply of_cases
  · intro hparent
    exact ⟨_, by rw [Tree.addChild, if_neg hparent]⟩
  · intro hparent
    exact ⟨_, _, addChild_eq (not_not.mp hparent) name payload⟩

theorem rename (tree : Tree P) (id : NodeId) (name : String) :
    tree.RefusedWhen (tree.rename id name) (¬tree.contains id = true) := by
  apply of_cases
  · intro hid
    exact ⟨_, by rw [Tree.rename, if_neg hid]⟩
  · intro hid
    exact ⟨_, _, by rw [Tree.rename, if_pos (not_not.mp hid)]⟩

theorem moveNode (tree : Tree P) (id parent : NodeId) :
    tree.RefusedWhen (tree.moveNode id parent) (¬tree.Movable id parent) := by
  apply of_cases
  · exact moveNode_of_not_movable
  · intro hmovable
    exact ⟨_, _, moveNode_of_movable (not_not.mp hmovable)⟩

theorem detach (tree : Tree P) (id : NodeId) :
    tree.RefusedWhen (tree.detach id) (id = root ∨ ¬tree.contains id = true) := by
  apply of_cases
  · rintro (rfl | hid)
    · exact ⟨_, by rw [Tree.detach, if_pos rfl]⟩
    · by_cases hroot : id = root
      · exact ⟨_, by rw [Tree.detach, if_pos hroot]⟩
      · exact ⟨_, by rw [Tree.detach, if_neg hroot, outline?_of_not_contains hid]⟩
  · intro hnot
    obtain ⟨hroot, hid⟩ := not_or.mp hnot
    obtain ⟨node, hnode⟩ := contains_iff.mp (not_not.mp hid)
    exact ⟨_, _, detach_eq hroot (outline?_of_find? hnode)⟩

theorem graft (tree : Tree P) (parent : NodeId) (other : Tree P) :
    tree.RefusedWhen (tree.graft parent other)
      (¬tree.contains parent = true ∨ ¬other.contains root = true) := by
  apply of_cases
  · intro hrefused
    by_cases hparent : tree.contains parent = true
    · have hother := hrefused.resolve_left (not_not.mpr hparent)
      exact ⟨_, by rw [Tree.graft, if_pos hparent, outline?_of_not_contains hother]⟩
    · exact ⟨_, by rw [Tree.graft, if_neg hparent]⟩
  · intro hnot
    obtain ⟨hparent, hother⟩ := not_or.mp hnot
    obtain ⟨node, hnode⟩ := contains_iff.mp (not_not.mp hother)
    exact ⟨_, _, graft_eq (not_not.mp hparent) (outline?_of_find? hnode)⟩

end RefusedWhen

/-! ## Replacements -/

theorem removeChild_of_not_contains {parent : NodeId} (hparent : ¬tree.contains parent = true)
    (name : String) : tree.removeChild parent name = (tree, 0) := by
  rw [removeChild, children_of_not_contains hparent]
  rfl

theorem contains_of_name? {id : NodeId} {name : String} (hname : tree.name? id = some name) :
    tree.contains id = true := by
  obtain ⟨node, hnode, _⟩ := Option.bind_eq_some_iff.mp hname
  exact contains_iff.mpr ⟨node, hnode⟩

/-- A graft that fails after the removal shows that there was no parent to remove children from. -/
theorem Linked.removeChild_of_graft_error (h : tree.Linked) {parent : NodeId} {other : Tree P}
    {name : String} (hname : other.name? root = some name) {failure : Failure}
    (hfail : ((tree.removeChild parent name).1.graft parent other).2 = .error failure) :
    tree.removeChild parent name = (tree, 0) := by
  apply removeChild_of_not_contains
  intro hparent
  rcases (RefusedWhen.graft _ parent other).fails_iff.mp ⟨failure, hfail⟩ with hgone | hrootless
  · exact hgone (h.contains_removeChild_parent name hparent)
  · exact hrootless (contains_of_name? hname)

theorem Linked.refusedWhen_replaceChild (h : tree.Linked) (parent : NodeId) (other : Tree P) :
    tree.RefusedWhen (tree.replaceChild parent other)
      (¬tree.contains parent = true ∨ ¬other.contains root = true) := by
  cases hname : other.name? root with
  | none =>
    rw [Tree.replaceChild, hname]
    exact .graft tree parent other
  | some name =>
    rw [replaceChild_eq hname]
    have hgraft := RefusedWhen.graft (tree.removeChild parent name).1 parent other
    have hkept : (tree.removeChild parent name).1.contains parent = true ↔
        tree.contains parent = true :=
      ⟨fun held => ((h.contains_removeChild_iff parent).mp held).1,
        h.contains_removeChild_parent name⟩
    constructor
    · rw [hgraft.fails_iff, hkept]
    · intro failure hfail
      rw [hgraft.keeps hfail, h.removeChild_of_graft_error hname hfail]

/-- Operations fail in known cases only and leave the tree as it is when they do. The graft of a
replacement comes after a removal and fails only when nothing was removed. -/
theorem failures_leave_tree {good : P → Prop} (hreach : Reachable good tree) :
    (∀ parent name payload,
      tree.RefusedWhen (tree.addChild parent name payload) (¬tree.contains parent = true)) ∧
    (∀ id name, tree.RefusedWhen (tree.rename id name) (¬tree.contains id = true)) ∧
    (∀ id parent, tree.RefusedWhen (tree.moveNode id parent) (id = root ∨
      ¬tree.contains id = true ∨ ¬tree.contains parent = true ∨ parent ∈ tree.descendants id)) ∧
    (∀ parent other, tree.RefusedWhen (tree.graft parent other)
      (¬tree.contains parent = true ∨ ¬other.contains root = true)) ∧
    (∀ id, tree.RefusedWhen (tree.detach id) (id = root ∨ ¬tree.contains id = true)) ∧
    ∀ parent other, tree.RefusedWhen (tree.replaceChild parent other)
        (¬tree.contains parent = true ∨ ¬other.contains root = true) ∧
      ∀ name failure, other.name? root = some name →
        ((tree.removeChild parent name).1.graft parent other).2 = .error failure →
        tree.removeChild parent name = (tree, 0) := by
  have h := hreach.linked
  refine ⟨.addChild tree, .rename tree, fun id parent => ?_, .graft tree, .detach tree, ?_⟩
  · exact (RefusedWhen.moveNode tree id parent).congr h.not_movable_iff
  · intro parent other
    exact ⟨h.refusedWhen_replaceChild parent other,
      fun name failure hname hfail => h.removeChild_of_graft_error hname hfail⟩

private def cellar : Tree Nat :=
  ofOutline ⟨⟨some "cellar", 0⟩,
    .cons ⟨some "rack", 1⟩ (.cons ⟨some "port", 2⟩ .nil .nil) (.cons ⟨some "cask", 3⟩ .nil .nil)⟩

theorem failures_leave_tree_cellar :
    Reachable (fun _ => True) cellar ∧
    (cellar.moveNode 1 2).1 = cellar ∧ (cellar.detach 7).1 = cellar ∧
    (cellar.graft 1 empty).1 = cellar ∧
    (∃ failure, (cellar.replaceChild 7 (single ⟨some "rack", 5⟩)).2 = .error failure) ∧
    (cellar.replaceChild 7 (single ⟨some "rack", 5⟩)).1 = cellar ∧
    cellar.removeChild 7 "rack" = (cellar, 0) ∧
    ¬∃ failure, (cellar.replaceChild root (single ⟨some "rack", 5⟩)).2 = .error failure := by
  have hreach : Reachable (fun _ => True) cellar := reachable_ofOutline _ trivial fun _ _ => trivial
  obtain ⟨_, _, hmove, hgraft, hdetach, hreplace⟩ := failures_leave_tree hreach
  obtain ⟨hrefused, hnone⟩ := hreplace 7 (single ⟨some "rack", 5⟩)
  have hfails : (cellar.replaceChild 7 (single ⟨some "rack", 5⟩)).2 =
    .error (.misuse (.unknownNode 7)) := rfl
  refine ⟨hreach, (hmove 1 2).keeps rfl, (hdetach 7).keeps rfl, (hgraft 1 empty).keeps rfl,
    ⟨_, hfails⟩, hrefused.keeps hfails, hnone "rack" _ rfl rfl, ?_⟩
  rw [(hreplace root _).1.fails_iff]
  decide

end Conform.Tree
