import Conform.Proofs.Tree.Sizes
import Conform.Proofs.Tree.Survivors
import Conform.Tree.Copy
/-!
# What copiers make

A copy is put together from the copies of the children, each finished before
it is grafted, so its nodes are numbered anew at every level. Grafting reads
nothing but the outline of what is grafted: what is finished in the end is the
tree of an outline, which is made from the bottom up.
-/

namespace Conform

universe u

variable {P : Type u}

open Conform.Tree (root Reachable)

namespace Copier

/-- Copies the nodes that pass a test together with all above them, and changes nothing. -/
def filtering (keep : NodeId → Bool) : Copier P := ⟨keep, fun tree => tree⟩

/-- What finishing makes of the tree of an outline. -/
def finished (copier : Copier P) (outline : Outline P) : Outline P :=
  ((copier.finish (.ofOutline outline)).outline? root).getD outline

/-- Finishing never leaves a tree without a root. -/
def KeepsRoot (copier : Copier P) : Prop :=
  ∀ outline, (copier.finish (.ofOutline outline)).contains root = true

/-- Finishing makes reachable trees of reachable ones, and of trees with one outline such trees. -/
structure OnOutlines (copier : Copier P) : Prop where
  reachable {tree : Tree P} (before : Reachable (fun _ => True) tree) :
    Reachable (fun _ => True) (copier.finish tree)
  congr {tree other : Tree P} (first : Reachable (fun _ => True) tree)
      (second : Reachable (fun _ => True) other) (same : tree.outline? root = other.outline? root) :
    (copier.finish tree).outline? root = (copier.finish other).outline? root

theorem KeepsRoot.outline?_finish {copier : Copier P} (h : copier.KeepsRoot)
    (outline : Outline P) :
    (copier.finish (.ofOutline outline)).outline? root = some (copier.finished outline) := by
  obtain ⟨node, hnode⟩ := Tree.contains_iff.mp (h outline)
  rw [finished, Tree.outline?_of_find? hnode, Option.getD_some]

theorem keepsRoot_filtering (keep : NodeId → Bool) : (filtering keep : Copier P).KeepsRoot :=
  fun outline => (Tree.linked_ofOutline outline).contains_root

@[simp] theorem finished_filtering (keep : NodeId → Bool) (outline : Outline P) :
    (filtering keep).finished outline = outline := by
  rw [finished, filtering, Tree.outline?_ofOutline, Option.getD_some]

theorem reachable_ofOutline (outline : Outline P) :
    Reachable (fun _ => True) (Tree.ofOutline outline) :=
  Tree.reachable_ofOutline outline trivial fun _ _ => trivial

theorem OnOutlines.keepsRoot {copier : Copier P} (h : copier.OnOutlines) : copier.KeepsRoot :=
  fun outline => (h.reachable (reachable_ofOutline outline)).linked.contains_root

theorem OnOutlines.outline?_finish {copier : Copier P} (h : copier.OnOutlines) {part : Tree P}
    (hpart : Reachable (fun _ => True) part) {outline : Outline P}
    (houtline : part.outline? root = some outline) :
    (copier.finish part).outline? root = some (copier.finished outline) := by
  rw [← h.keepsRoot.outline?_finish outline]
  apply h.congr hpart (reachable_ofOutline outline)
  rw [houtline, Tree.outline?_ofOutline]

theorem assemble?_eq {tree : Tree P} (hroot : tree.contains root = true) {parts : List (Tree P)}
    {row : Forest (Label P)}
    (hparts : List.Forall₂ (fun part outline => part.outline? root = some ⟨outline.1, outline.2⟩)
      parts row.trees) : assemble? tree parts = some (Tree.sprout root row tree) := by
  induction row generalizing tree parts with
  | nil =>
    cases hparts
    rfl
  | cons label below rest _ ih =>
    rw [Forest.trees_cons] at hparts
    cases hparts with
    | cons hpart hparts =>
      have hkept : (Tree.sprout root (.cons label below .nil) tree).contains root = true :=
        Tree.contains_sprout _ hroot
      rw [assemble?, Tree.graft_eq hroot hpart]
      exact ih hkept hparts

variable [Inhabited P]

/-- The finished copies of a row of nodes, none of which is left out, made from the bottom up. -/
def refine (copier : Copier P) : Forest (NodeId × Node P) → Forest (Label P)
  | .nil => .nil
  | .cons entry below rest =>
    let made := copier.finished ⟨label entry.2, copier.refine below⟩
    .cons made.root made.below (copier.refine rest)

theorem refine_filtering (keep : NodeId → Bool) (forest : Forest (NodeId × Node P)) :
    (filtering keep).refine forest = forest.map (label ·.2) := by
  induction forest with
  | nil => rfl
  | cons entry below rest ihbelow ihrest =>
    simp only [refine, finished_filtering, ihbelow, ihrest, Forest.map]

/-- The copies of a row have the outlines that refining what is kept of the row gives. -/
theorem outlines_copies {copier : Copier P} (h : copier.KeepsRoot)
    (forest : Forest (NodeId × Node P)) :
    List.Forall₂ (fun part outline => part.outline? root = some ⟨outline.1, outline.2⟩)
      (copier.copies forest) (copier.refine (forest.sift (copier.keep ·.1))).trees := by
  induction forest with
  | nil => exact .nil
  | cons entry below rest ihbelow ihrest =>
    obtain ⟨id, node⟩ := entry
    rw [copies, Forest.sift]
    cases hkeep : copier.keep id with
    | false => simpa [hkeep] using ihrest
    | true =>
      simp only [if_true]
      rw [assemble?_eq rfl ihbelow]
      refine .cons ?_ ihrest
      rw [← Tree.ofOutline_eq ⟨label node, _⟩]
      exact h.outline?_finish _

theorem copy?_of_refused {copier : Copier P} {tree : Tree P} (h : tree.Linked) {id : NodeId}
    (hid : tree.contains id = true) (hkeep : copier.keep id = false) :
    copier.copy? tree id = none := by
  obtain ⟨node, hnode⟩ := Tree.contains_iff.mp hid
  rw [copy?, h.branches_eq (h.spans_singleton hnode) (Tree.apart_singleton tree id), copies, hkeep]
  rfl

/-- A copy is what finishing makes of the tree of an outline. -/
theorem copy?_eq {copier : Copier P} (hfinish : copier.KeepsRoot) {tree : Tree P} (h : tree.Linked)
    {id : NodeId} {node : Node P} (hnode : tree.find? id = some node)
    (hkeep : copier.keep id = true) :
    copier.copy? tree id = some (copier.finish (.ofOutline ⟨label node,
      copier.refine ((tree.branches (tree.children id)).sift (copier.keep ·.1))⟩)) := by
  have hsingle : (Tree.single (label node)).contains root = true := rfl
  have hassembled := assemble?_eq hsingle
    (outlines_copies hfinish (tree.branches (tree.children id)))
  rw [copy?, h.branches_eq (h.spans_singleton hnode) (Tree.apart_singleton tree id), copies,
    if_pos hkeep, hassembled, ← Tree.ofOutline_eq ⟨label node, _⟩]
  rfl

theorem copy?_filtering {tree : Tree P} (h : tree.Linked) {id : NodeId} {node : Node P}
    (hnode : tree.find? id = some node) (keep : NodeId → Bool) (hkeep : keep id = true) :
    (filtering keep).copy? tree id = some (.ofOutline ⟨label node,
      ((tree.branches (tree.children id)).sift (keep ·.1)).map (label ·.2)⟩) := by
  rw [copy?_eq (keepsRoot_filtering keep) h hnode hkeep, refine_filtering]
  rfl

/-- Copying with a function that finishes every subtree is a fold from the bottom up over what
survives: what finishing gives for the copies of the children is put below the copy of the node as
it is, root and all, and then finished itself. The numbers of the trees in between play no part. -/
theorem copy_folds_upward {good : P → Prop} {tree : Tree P} (hreach : Reachable good tree)
    {copier : Copier P} (hfinish : copier.OnOutlines) {id : NodeId}
    (hid : tree.contains id = true) (hkeep : copier.keep id = true) :
    (∀ part outline, Reachable (fun _ => True) part → part.outline? root = some outline →
      (copier.finish part).outline? root = some (copier.finished outline)) ∧
    ∃ forest result outline, tree.Spans [id] forest ∧
      (∀ other, other ∈ (forest.sift (copier.keep ·.1)).numbers ↔
        tree.Survives copier.keep id other) ∧
      copier.copy? tree id = some result ∧ Reachable (fun _ => True) result ∧
      result.outline? root = some outline ∧
      copier.refine (forest.sift (copier.keep ·.1)) = .cons outline.root outline.below .nil := by
  have h := hreach.linked
  obtain ⟨node, hnode⟩ := Tree.contains_iff.mp hid
  have hspan := h.spans_singleton hnode
  refine ⟨fun part outline hpart => hfinish.outline?_finish hpart, _, _, _, hspan, fun other => ?_,
    copy?_eq hfinish.keepsRoot h hnode hkeep, hfinish.reachable (reachable_ofOutline _),
    hfinish.keepsRoot.outline?_finish _, ?_⟩
  · simpa using h.mem_numbers_sift_iff hspan other
  · rw [Forest.sift, if_pos hkeep]
    rfl

private def letter : Tree Nat :=
  .ofOutline ⟨⟨some "letter", 1⟩,
    .cons ⟨some "body", 2⟩
      (.cons ⟨some "draft", 3⟩ (.cons ⟨some "note", 4⟩ .nil .nil)
        (.cons ⟨some "draft", 5⟩ .nil .nil))
      (.cons ⟨some "seal", 6⟩ .nil .nil)⟩

private def clean : Outline Nat := ⟨⟨some "text", 7⟩, .cons ⟨some "line", 8⟩ .nil .nil⟩

/-- Puts a clean text in the place of drafts and leaves one draft out. -/
private def editor : Copier Nat where
  keep := (· != 4)
  finish tree := if tree.name? root = some "draft" then .ofOutline clean else tree

private theorem onOutlines_editor : editor.OnOutlines where
  reachable {tree} hbefore := by
    simp only [editor]
    split
    · exact reachable_ofOutline clean
    · exact hbefore
  congr {tree other} hfirst hsecond hsame := by
    obtain ⟨outline, houtline⟩ := hfirst.linked.exists_outline?
    have hname := Tree.name?_of_outline? houtline
    have hname' := Tree.name?_of_outline? (hsame.symm.trans houtline)
    simp only [editor, hname, hname']
    split
    · rfl
    · exact hsame

theorem copy_folds_upward_letter :
    Reachable (fun _ => True) letter ∧ editor.OnOutlines ∧ letter.contains 1 = true ∧
    editor.keep 1 = true ∧
    (∀ part outline, Reachable (fun _ => True) part → part.outline? root = some outline →
      (editor.finish part).outline? root = some (editor.finished outline)) ∧
    ∃ forest result, letter.Spans [1] forest ∧ editor.copy? letter 1 = some result ∧
      result.outline? root =
        some ⟨⟨some "body", 0⟩, .cons clean.root clean.below .nil⟩ ∧
      editor.refine (forest.sift (editor.keep ·.1)) =
        .cons ⟨some "body", 0⟩ (.cons clean.root clean.below .nil) .nil := by
  have hreach : Reachable (fun _ => True) letter := reachable_ofOutline _
  have hbody : letter.contains 1 = true := rfl
  obtain ⟨hparts, forest, result, outline, hspan, _, hcopy, _, houtline, hfold⟩ :=
    copy_folds_upward hreach onOutlines_editor hbody rfl
  have hresult : (editor.copy? letter 1).bind (·.outline? root) =
      some ⟨⟨some "body", 0⟩, .cons clean.root clean.below .nil⟩ := by decide
  rw [hcopy, Option.bind_some, houtline, Option.some.injEq] at hresult
  subst hresult
  exact ⟨hreach, onOutlines_editor, hbody, rfl, hparts, forest, result, hspan, hcopy, houtline,
    hfold⟩

end Copier

end Conform
