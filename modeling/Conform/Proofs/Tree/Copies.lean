import Conform.Proofs.Tree.Copiers
import Conform.Proofs.Tree.Frames
import Conform.Proofs.Tree.Moves
import Conform.Proofs.Tree.Ways
/-!
# Bare copies

A copy has the names and the shape of what is copied, and at every path the
copy of what stands there. Leaves keep their payloads.
-/

namespace Conform

universe u

variable {P : Type u} [Inhabited P]

def bareTree (tree : Label P × Forest (Label P)) :
    Label P × Forest (Label P) :=
  (if tree.2.isEmpty then tree.1 else ⟨tree.1.name?, default⟩, tree.2.bare)

@[simp] theorem name?_bareTree (tree : Label P × Forest (Label P)) :
    (bareTree tree).1.name? = tree.1.name? := by
  rw [bareTree]
  split <;> rfl

@[simp] theorem Forest.trees_bare (forest : Forest (Label P)) :
    forest.bare.trees = forest.trees.map bareTree := by
  induction forest with
  | nil => rfl
  | cons label below rest _ ih =>
    rw [bare, trees_cons, trees_cons, List.map_cons, ih]
    rfl

/-- An outline copied without the payloads of its inner nodes. -/
def Outline.bare (outline : Outline P) : Outline P :=
  ⟨(bareTree (outline.root, outline.below)).1, outline.below.bare⟩

theorem Forest.named?_bare (forest : Forest (Label P)) (name : String) :
    forest.bare.named? name = (forest.named? name).map bareTree := by
  have htest : (fun tree : Label P × Forest (Label P) => tree.1.name? == some name) ∘ bareTree =
      fun tree => tree.1.name? == some name := by
    funext tree
    rw [Function.comp_apply, name?_bareTree]
  rw [named?, named?, trees_bare, List.find?_map, htest]

theorem Outline.at?_bare (outline : Outline P) (names : List String) :
    outline.bare.at? names = (outline.at? names).map bare := by
  induction names generalizing outline with
  | nil => rfl
  | cons name rest ih =>
    rw [at?_cons, at?_cons, show outline.bare.below = outline.below.bare from rfl,
      Forest.named?_bare]
    cases outline.below.named? name with
    | none => rfl
    | some tree => exact ih ⟨tree.1, tree.2⟩

@[simp] theorem Outline.names_bare (outline : Outline P) :
    outline.bare.names = outline.names := by
  rw [names, names, show outline.bare.below = outline.below.bare from rfl, Forest.roots_eq,
    Forest.roots_eq, Forest.trees_bare, List.map_map, List.map_map, List.map_map]
  refine List.map_congr_left fun tree _ => ?_
  exact name?_bareTree tree

@[simp] theorem Outline.isEmpty_bare (outline : Outline P) :
    outline.bare.below.isEmpty = outline.below.isEmpty := by
  rw [← isEmpty_names, names_bare, isEmpty_names]

theorem Outline.root_bare {outline : Outline P}
    (hleaf : outline.below.isEmpty = true) : outline.bare.root = outline.root := by
  rw [bare, bareTree, if_pos hleaf]

/-! ## Copied rows -/

namespace Forest

theorem map_name?_bare (forest : Forest (Label P)) :
    forest.bare.map (·.name?) = forest.map (·.name?) := by
  induction forest with
  | nil => rfl
  | cons label below rest ihbelow ihrest =>
    rw [bare, map, map, ihbelow, ihrest]
    cases below.isEmpty <;> rfl

theorem leaves_bare (forest : Forest (Label P)) : forest.bare.leaves = forest.leaves := by
  induction forest with
  | nil => rfl
  | cons label below rest ihbelow ihrest =>
    cases below with
    | nil => simp [bare, leaves, isEmpty, ihrest]
    | cons first down right =>
      show (cons first down right).bare.leaves ++ rest.bare.leaves =
        (cons first down right).leaves ++ rest.leaves
      rw [ihbelow, ihrest]

theorem tips_bare (forest : Forest (Label P)) : forest.bare.tips = forest.tips := by
  induction forest with
  | nil => rfl
  | cons label below rest ihbelow ihrest =>
    cases below with
    | nil => simp [bare, tips, isEmpty, ihrest]
    | cons first down right =>
      show (cons first down right).bare.tips.map _ ++ rest.bare.tips =
        (cons first down right).tips.map _ ++ rest.tips
      rw [ihbelow, ihrest]
      rfl

theorem EachRow.bare {forest : Forest (Label P)} (h : forest.EachRow Tree.NamedRow) :
    forest.bare.EachRow Tree.NamedRow := by
  induction h with
  | @intro forest row _ ih =>
    refine .intro ?_ fun tree htree => ?_
    · have hnames := Outline.names_bare ⟨⟨none, default⟩, forest⟩
      rw [Tree.namedRow_iff] at row ⊢
      rwa [show forest.bare.roots.map (·.name?) = forest.roots.map (·.name?) from hnames]
    · rw [trees_bare, List.mem_map] at htree
      obtain ⟨former, hformer, rfl⟩ := htree
      exact ih former hformer

end Forest

theorem Outline.tips_bare (outline : Outline P) : outline.bare.tips = outline.tips := by
  rw [tips, tips, isEmpty_bare]
  cases hleaf : outline.below.isEmpty with
  | true =>
    rw [root_bare hleaf]
    rfl
  | false => exact Forest.tips_bare outline.below

/-! ## Copied trees -/

open Conform.Tree (root)

theorem Copier.label_eq {tree : Tree P} {node : Node P} {below : Forest (NodeId × Node P)}
    (hdown : tree.Spans node.children below) :
    label node = (bareTree (node.toLabel, below.map (·.2.toLabel))).1 := by
  rw [label, hdown.isEmpty_eq, bareTree, Forest.isEmpty_map]
  split <;> rfl

theorem Tree.Spans.bare_labels {tree : Tree P} {ids : List NodeId}
    {forest : Forest (NodeId × Node P)} (hspan : tree.Spans ids forest) :
    (forest.map (·.2.toLabel)).bare = forest.map (Copier.label ·.2) := by
  induction hspan with
  | nil => rfl
  | cons _ hdown _ ihdown ihright =>
    rw [Forest.map, Forest.map, Copier.label_eq hdown, ← ihdown, ← ihright]
    rfl

/-- A copied tree is the tree of the bare outline. -/
theorem Tree.Linked.copy_eq {tree : Tree P} (h : tree.Linked) {id : NodeId} {outline : Outline P}
    (houtline : tree.outline? id = some outline) : tree.copy id = ofOutline outline.bare := by
  obtain ⟨node, hnode, rfl⟩ := Option.map_eq_some_iff.mp houtline
  have hdown : tree.Spans node.children (tree.branches (tree.children id)) :=
    children_of_find? hnode ▸ h.spans_children id
  have hcopy := Copier.copy?_filtering h hnode (fun _ => true) rfl
  rw [Forest.sift_eq_self fun _ => rfl, ← hdown.bare_labels, Copier.label_eq hdown] at hcopy
  rw [copy, show (Copier.plain : Copier P) = .filtering fun _ => true from rfl, hcopy]
  rfl

namespace Tree

variable {tree other : Tree P}

/-- Nodes of one name; the first lends its payload to the second when it is a leaf. -/
def SameLeaf (entry other : NodeId × Node P) : Prop :=
  entry.2.name? = other.2.name? ∧ (entry.2.children = [] → entry.2.payload = other.2.payload)

theorem exists_bare (outline : Outline P) {id : NodeId}
    (hid : (ofOutline outline.bare).contains id = true) :
    ∃ part : Outline P, (ofOutline outline.bare).outline? id = some part.bare := by
  have hlinked := linked_ofOutline outline.bare
  refine hlinked.up_induction
    (motive := fun id => ∃ part, (ofOutline outline.bare).outline? id = some part.bare)
    ⟨outline, outline?_ofOutline _⟩ ?_ hid
  rintro id parent hparent ⟨whole, hwhole⟩
  obtain ⟨node, hnode⟩ := contains_iff.mp (contains_of_parent? hparent)
  have houtline := outline?_of_find? hnode
  have htree : (node.toLabel, (ofOutline outline.bare).labelsBelow id) ∈
      whole.bare.below.trees := by
    rw [← labelsBelow_of_outline? hwhole, hlinked.trees_labelsBelow, List.mem_filterMap]
    refine ⟨id, (hlinked.mem_children_iff parent id).mpr hparent, ?_⟩
    rw [houtline]
    rfl
  rw [show whole.bare.below = whole.below.bare from rfl, Forest.trees_bare, List.mem_map] at htree
  obtain ⟨part, _, hpart⟩ := htree
  have hlabel := congrArg Prod.fst hpart
  have hbelow := congrArg Prod.snd hpart
  refine ⟨⟨part.1, part.2⟩, ?_⟩
  rw [houtline, Option.some.injEq, Outline.mk.injEq]
  exact ⟨hlabel.symm, hbelow.symm⟩

namespace Linked

theorem linked_copy (h : tree.Linked) : (tree.copy root).Linked := by
  obtain ⟨outline, houtline⟩ := h.exists_outline?
  rw [h.copy_eq houtline]
  exact linked_ofOutline _

/-- The leaves of a copy lie where those of the original do and carry the same. -/
theorem places_copy (h : tree.Linked) :
    (tree.copy root).leaves.map (tree.copy root).place = tree.leaves.map tree.place := by
  obtain ⟨outline, houtline⟩ := h.exists_outline?
  rw [h.places_leaves houtline, h.copy_eq houtline,
    (linked_ofOutline _).places_leaves (outline?_ofOutline _), Outline.tips_bare]

/-- A copy has the shape and the names of the original, and what its leaves carry. -/
theorem matched_copy (h : tree.Linked) :
    (tree.branches [root]).Matched SameLeaf ((tree.copy root).branches [root]) := by
  obtain ⟨node, hnode⟩ := contains_iff.mp h.contains_root
  have houtline := outline?_of_find? hnode
  have hspan := h.spans_singleton hnode
  have hcopied : (tree.copy root).outline? root =
      some (Outline.bare ⟨node.toLabel, tree.labelsBelow root⟩) := by
    rw [h.copy_eq houtline, outline?_ofOutline]
  have hlabels : (tree.branches [root]).map (Copier.label ·.2) =
      ((tree.copy root).branches [root]).map (·.2.toLabel) := by
    rw [h.linked_copy.labels_branches hcopied, h.branches_eq hspan (apart_singleton tree root),
      ← hspan.bare_labels]
    rfl
  apply Forest.matched_of_map_eq hlabels
  rintro ⟨id, held⟩ _ ⟨id', held'⟩ hlabel
  have hname := congrArg Label.name? hlabel
  have hpayload := congrArg Label.payload hlabel
  refine ⟨hname, fun hleaf => ?_⟩
  rw [Copier.label, hleaf] at hpayload
  exact hpayload

theorem payload?_copy_of_inner (h : tree.Linked) {id : NodeId}
    (hid : (tree.copy root).contains id = true) (hinner : (tree.copy root).isLeaf id = false) :
    (tree.copy root).payload? id = some default := by
  obtain ⟨outline, houtline⟩ := h.exists_outline?
  rw [h.copy_eq houtline] at hid hinner ⊢
  obtain ⟨part, hpart⟩ := exists_bare outline hid
  rw [(linked_ofOutline _).isLeaf_of_outline? hpart, Outline.isEmpty_bare] at hinner
  rw [payload?_of_outline? hpart, Outline.bare, bareTree, hinner]
  rfl

theorem sameFrame_copy (h : tree.Linked) (hother : other.Linked) (hframe : tree.SameFrame other) :
    (tree.copy root).SameFrame (other.copy root) := by
  obtain ⟨outline, houtline⟩ := h.exists_outline?
  obtain ⟨outline', houtline'⟩ := hother.exists_outline?
  rw [h.copy_eq houtline, hother.copy_eq houtline']
  apply SameFrame.ofOutline
  · rw [Outline.bare, Outline.bare, name?_bareTree, name?_bareTree,
      ← name?_of_outline? houtline, ← name?_of_outline? houtline', hframe.name?]
  · rw [show outline.bare.below = outline.below.bare from rfl,
      show outline'.bare.below = outline'.below.bare from rfl, Forest.map_name?_bare,
      Forest.map_name?_bare, ← labelsBelow_of_outline? houtline,
      ← labelsBelow_of_outline? houtline', hframe.map_labelsBelow]

theorem eq_copy (h : tree.Linked) (hframe : other.SameFrame (tree.copy root))
    (hinner : ∀ id, other.contains id = true → other.isLeaf id = false →
      other.payload? id = some default)
    (hleaves : other.leaves.map other.payload? = tree.leaves.map tree.payload?) :
    other = tree.copy root := by
  have hlinked := hframe.linked h.linked_copy
  have hplaces := congrArg (List.map (·.2)) h.places_copy
  rw [List.map_map, List.map_map] at hplaces
  have hheld := hleaves.trans hplaces.symm
  rw [← hframe.leaves] at hheld
  refine hframe.eq_of_payload? fun id => ?_
  cases hid : other.contains id with
  | false =>
    have hnone : other.find? id = none := by simpa [contains] using hid
    rw [hframe.contains] at hid
    have hnone' : (tree.copy root).find? id = none := by simpa [contains] using hid
    rw [payload?, payload?, hnone, hnone']
  | true =>
    cases hleaf : other.isLeaf id with
    | true => exact List.map_inj_left.mp hheld id ((hlinked.mem_leaves_iff id).mpr ⟨hid, hleaf⟩)
    | false =>
      rw [hinner id hid hleaf, h.payload?_copy_of_inner]
      · rw [← hframe.contains, hid]
      · rw [← hframe.isLeaf, hleaf]

end Linked

end Tree

end Conform
