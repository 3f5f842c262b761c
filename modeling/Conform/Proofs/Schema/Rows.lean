import Conform.Proofs.Tree.Copies
import Conform.Schema.Merge
/-!
# Merging row by row

The union of two schemas worked out on labels alone, row by row. Adding nodes
one after another to the merged schema leaves the tree of the rows: a new node
comes behind all that were added before it, which is the pre-order.
-/

namespace Conform

namespace Schema

open Conform.Tree (root sprout)

/-- Adds to a merged row the trees of the other row that had no counterpart in it. -/
def withRest (theirs : Forest (NodeId × Label Entry))
    (merged : Forest (Label Entry) × List NodeId) : Forest (Label Entry) :=
  merged.1.append
    ((theirs.filterRoots fun root => !merged.2.contains root.1).map (·.2)).bare

/-- Merges a row of trees at a path with a row of another schema, and tells which of that row had
counterparts. -/
def mergeRow : Path → Forest (NodeId × Label Entry) → Forest (Label Entry) →
    Except Failure (Forest (Label Entry) × List NodeId)
  | _, _, .nil => .ok (.nil, [])
  | place, theirs, .cons ours below rest =>
    let path := place.append ours.title
    match theirs.findRoot? fun root => root.2.name? == some ours.title with
    | none => do
      let (merged, used) ← mergeRow place theirs rest
      let payload := if below.isEmpty then ours.payload else default
      return (.cons ⟨ours.name?, payload⟩ below.bare merged, used)
    | some ((id, other), otherBelow) => do
      let mergedBelow ← match below.isEmpty, otherBelow.isEmpty with
        | true, true => (checkLeaves path ours.payload other.payload).map fun _ => Forest.nil
        | false, false => (mergeRow path otherBelow below).map (withRest otherBelow)
        | _, _ => .error (conflict path ours.payload other.payload)
      let (merged, used) ← mergeRow place theirs rest
      return (.cons ⟨some ours.title, ours.payload⟩ mergedBelow merged, id :: used)

def numbered (entry : NodeId × Node Entry) : NodeId × Label Entry := (entry.1, entry.2.toLabel)

/-- The children of the root with all below them, each label with the number of its node. -/
def numberedBelow (schema : Schema) : Forest (NodeId × Label Entry) :=
  (schema.branches (schema.children root)).map numbered

def mergeRows (schema other : Schema) : Except Failure Schema := do
  let theirs := numberedBelow other
  let merged ← mergeRow .empty theirs (schema.labelsBelow root)
  let label := ⟨schema.name? root, (schema.payload? root).getD default⟩
  return Tree.ofOutline ⟨label, withRest theirs merged⟩

def partner? (theirs : Forest (NodeId × Label Entry)) (name : String) :
    Option ((NodeId × Label Entry) × Forest (NodeId × Label Entry)) :=
  theirs.findRoot? fun root => root.2.name? == some name

theorem partner?_eq (theirs : Forest (NodeId × Label Entry)) (name : String) :
    partner? theirs name = theirs.trees.find? fun tree => tree.1.2.name? == some name :=
  theirs.findRoot?_eq _

theorem mem_trees_of_partner? {theirs : Forest (NodeId × Label Entry)} {name : String}
    {tree : (NodeId × Label Entry) × Forest (NodeId × Label Entry)}
    (h : partner? theirs name = some tree) : tree ∈ theirs.trees := by
  rw [partner?_eq] at h
  exact List.mem_of_find?_eq_some h

theorem named?_map_snd (theirs : Forest (NodeId × Label Entry)) (name : String) :
    (theirs.map (·.2)).named? name =
      (partner? theirs name).map fun tree => (tree.1.2, tree.2.map (·.2)) := by
  rw [Forest.named?, Forest.trees_map, List.find?_map, partner?_eq]
  rfl

/-- What is merged below two nodes at a path that have the same name. -/
def mergeBelow (path : Path) (ours other : Label Entry) (below : Forest (Label Entry))
    (otherBelow : Forest (NodeId × Label Entry)) : Except Failure (Forest (Label Entry)) :=
  match below.isEmpty, otherBelow.isEmpty with
  | true, true => (checkLeaves path ours.payload other.payload).map fun _ => .nil
  | false, false => (mergeRow path otherBelow below).map (withRest otherBelow)
  | _, _ => .error (conflict path ours.payload other.payload)

theorem mergeRow_cons_found {place : Path} {theirs otherBelow : Forest (NodeId × Label Entry)}
    {ours other : Label Entry} {id : NodeId}
    (hfound : partner? theirs ours.title = some ((id, other), otherBelow))
    (below rest : Forest (Label Entry)) :
    mergeRow place theirs (.cons ours below rest) = (do
      let mergedBelow ← mergeBelow (place.append ours.title) ours other below otherBelow
      let (merged, used) ← mergeRow place theirs rest
      return (.cons ⟨some ours.title, ours.payload⟩ mergedBelow merged, id :: used)) := by
  rw [partner?] at hfound
  rw [mergeRow, mergeBelow]
  simp only [hfound]
  cases below.isEmpty <;> cases otherBelow.isEmpty <;> rfl

theorem mergeRow_cons_missing {place : Path} {theirs : Forest (NodeId × Label Entry)}
    {ours : Label Entry} (hmissing : partner? theirs ours.title = none)
    (below rest : Forest (Label Entry)) :
    mergeRow place theirs (.cons ours below rest) = (do
      let (merged, used) ← mergeRow place theirs rest
      let payload := if below.isEmpty then ours.payload else default
      return (.cons ⟨ours.name?, payload⟩ below.bare merged, used)) := by
  rw [partner?] at hmissing
  rw [mergeRow]
  simp only [hmissing]

/-! ## One node after another -/

section Nodes

variable {schema other merged : Schema} {into : NodeId}

theorem partner?_map_numbered (forest : Forest (NodeId × Node Entry)) (name : String) :
    partner? (forest.map numbered) name =
      (forest.findRoot? fun entry => entry.2.name? == some name).map fun tree =>
        (numbered tree.1, tree.2.map numbered) := by
  rw [partner?_eq, Forest.trees_map, List.find?_map, Forest.findRoot?_eq]
  rfl

theorem addEntry_eq (hinto : merged.contains into = true) (name : String) (entry : Entry) :
    addEntry merged into name entry =
      .ok (merged.grow into ⟨some name, entry⟩, merged.bound) := by
  rw [addEntry, Tree.addChild_eq hinto]
  rfl

theorem labelsBelow_of_spans (h : schema.Linked) {id : NodeId} {node : Node Entry}
    {below : Forest (NodeId × Node Entry)} (hnode : schema.find? id = some node)
    (hdown : schema.Spans node.children below) :
    schema.labelsBelow id = below.map (·.2.toLabel) := by
  have hspan := h.spans_children id
  rw [Tree.children_of_find? hnode] at hspan
  rw [Tree.labelsBelow, Tree.children_of_find? hnode, hspan.unique hdown]

theorem graftCopy_eq (h : schema.Linked) {id : NodeId} {node : Node Entry}
    {below : Forest (NodeId × Node Entry)} (hnode : schema.find? id = some node)
    (hdown : schema.Spans node.children below) (hinto : merged.contains into = true) :
    graftCopy schema into merged id =
      .ok (sprout into (.bare (.cons node.toLabel (below.map (·.2.toLabel)) .nil)) merged) := by
  have houtline := Tree.outline?_of_find? hnode
  rw [labelsBelow_of_spans h hnode hdown] at houtline
  rw [graftCopy, h.copy_eq houtline, Tree.graft_eq hinto (Tree.outline?_ofOutline _)]
  rfl

theorem graftRest_eq (h : other.Linked) {ids : List NodeId} {theirs : Forest (NodeId × Node Entry)}
    (hspan : other.Spans ids theirs) (used : List NodeId) (hinto : merged.contains into = true) :
    graftRest other used into merged ids =
      .ok (sprout into (withRest (theirs.map numbered) (.nil, used)) merged) := by
  induction hspan generalizing merged with
  | nil => rfl
  | @cons id node rest below others found down _ _ ihright =>
    rw [graftRest, List.filter_cons]
    cases hused : used.contains id with
    | true =>
      have hleft : withRest ((Forest.cons (id, node) below others).map numbered) (.nil, used) =
          withRest (others.map numbered) (.nil, used) := by
        simp only [withRest, Forest.map, Forest.filterRoots, numbered, hused, Bool.not_true,
          Bool.false_eq_true, if_false]
      rw [hleft, ← ihright hinto]
      rfl
    | false =>
      have hgrafted : withRest ((Forest.cons (id, node) below others).map numbered) (.nil, used) =
          (Forest.bare (.cons node.toLabel (below.map (·.2.toLabel)) .nil)).append
            (withRest (others.map numbered) (.nil, used)) := by
        simp only [withRest, Forest.map, Forest.filterRoots, numbered, hused, Bool.not_false,
          if_true, Forest.bare, Forest.append, Forest.isEmpty_map, Forest.map_map]
        rfl
      have hkept : (sprout into (.bare (.cons node.toLabel (below.map (·.2.toLabel)) .nil))
          merged).contains into = true := Tree.contains_sprout _ hinto
      rw [hgrafted, Tree.sprout_append, ← ihright hkept]
      show (graftCopy other into merged id >>= fun grown => graftRest other used into grown rest) = _
      rw [graftCopy_eq h found down hinto]
      rfl

theorem bare_cons (label : Label Entry) (below : Forest (Label Entry)) :
    (Forest.cons label below .nil).bare =
      .cons ⟨label.name?, if below.isEmpty then label.payload else default⟩ below.bare .nil := by
  rw [Forest.bare]
  cases below.isEmpty <;> rfl

theorem mergePair_eq (path : Path) {child counterpart : NodeId} {node otherNode : Node Entry}
    {below otherBelow : Forest (NodeId × Node Entry)} (hnode : schema.find? child = some node)
    (hdown : schema.Spans node.children below) (hother : other.find? counterpart = some otherNode)
    (hotherDown : other.Spans otherNode.children otherBelow) (hinto : merged.contains into = true)
    {descend : Schema → NodeId → Except Failure Schema}
    (hdescend : descend (merged.grow into ⟨some node.title, node.payload⟩) merged.bound =
      (mergeRow path (otherBelow.map numbered) (below.map (·.2.toLabel))).map fun row =>
        sprout merged.bound (withRest (otherBelow.map numbered) row)
          (merged.grow into ⟨some node.title, node.payload⟩)) :
    mergePair schema other path child counterpart merged into descend =
      (mergeBelow path node.toLabel otherNode.toLabel (below.map (·.2.toLabel))
        (otherBelow.map numbered)).map fun part =>
          sprout into (.cons ⟨some node.title, node.payload⟩ part .nil) merged := by
  have hleaf : schema.isLeaf child = below.isEmpty := by
    rw [Tree.isLeaf, Tree.children_of_find? hnode, hdown.isEmpty_eq]
  have hotherLeaf : other.isLeaf counterpart = otherBelow.isEmpty := by
    rw [Tree.isLeaf, Tree.children_of_find? hother, hotherDown.isEmpty_eq]
  rw [mergePair, mergeBelow, hleaf, hotherLeaf, Forest.isEmpty_map, Forest.isEmpty_map,
    Tree.title_of_find? hnode, Tree.payload?_of_find? hnode, Tree.payload?_of_find? hother,
    Option.getD_some, Option.getD_some, addEntry_eq hinto]
  cases below.isEmpty <;> cases otherBelow.isEmpty
  · show descend _ _ = _
    rw [hdescend]
    cases mergeRow path (otherBelow.map numbered) (below.map (·.2.toLabel)) <;> rfl
  · rfl
  · rfl
  · dsimp only
    cases checkLeaves path node.payload otherNode.payload <;> rfl

/-- Merging the children of two nodes adds the merged row below the node of the merged schema. -/
theorem mergeChildren_eq (ha : schema.Linked) (hb : other.Linked) {ids : List NodeId}
    {ours : Forest (NodeId × Node Entry)} (hours : schema.Spans ids ours) {partner : NodeId}
    {theirs : Forest (NodeId × Node Entry)} (htheirs : other.Spans (other.children partner) theirs)
    (place : Path) (used : List NodeId) (hinto : merged.contains into = true) :
    mergeChildren schema other place partner used merged into ours =
      (mergeRow place (theirs.map numbered) (ours.map (·.2.toLabel))).map fun row =>
        sprout into (withRest (theirs.map numbered) (row.1, used ++ row.2)) merged := by
  induction hours generalizing partner theirs place used merged into with
  | nil =>
    rw [mergeChildren, graftRest_eq hb htheirs used hinto]
    simp [Forest.map, mergeRow, Except.map]
  | @cons id node rest below others found down _ ihdown ihright =>
    have hgo (label : Label Entry) (part : Forest (Label Entry)) (used : List NodeId) :
        mergeChildren schema other place partner used (sprout into (.cons label part .nil) merged)
            into others =
          (mergeRow place (theirs.map numbered) (others.map (·.2.toLabel))).map fun row =>
            sprout into (withRest (theirs.map numbered) (.cons label part row.1, used ++ row.2))
              merged :=
      ihright htheirs place used (Tree.contains_sprout _ hinto)
    have hpartner := htheirs.find?_named node.title
    have hrow := partner?_map_numbered theirs node.title
    rw [mergeChildren, Tree.title_of_find? found, Tree.childNamed?, hpartner, Forest.map]
    cases hfind : theirs.findRoot? fun entry => entry.2.name? == some node.title with
    | none =>
      rw [hfind] at hrow
      rw [mergeRow_cons_missing hrow]
      simp only [Option.map_none, graftCopy_eq ha found down hinto, bare_cons]
      show mergeChildren schema other place partner used _ into others = _
      rw [hgo]
      cases mergeRow place (theirs.map numbered) (others.map (·.2.toLabel)) <;> rfl
    | some tree =>
      obtain ⟨⟨counterpart, otherNode⟩, otherBelow⟩ := tree
      rw [hfind] at hrow
      obtain ⟨hother, hdown⟩ := htheirs.of_findRoot? hfind
      have hspan : other.Spans (other.children counterpart) otherBelow := by
        rwa [Tree.children_of_find? hother]
      have hpair : mergePair schema other (place.append node.title) id counterpart merged into
          (fun merged id =>
            mergeChildren schema other (place.append node.title) counterpart [] merged id below) = _ :=
        mergePair_eq (place.append node.title) found down hother hdown hinto
          (ihdown hspan _ [] (Tree.contains_grow_bound merged into _))
      rw [mergeRow_cons_found hrow]
      simp only [Option.map_some, hpair]
      cases mergeBelow (place.append node.title) node.toLabel otherNode.toLabel
          (below.map (·.2.toLabel)) (otherBelow.map numbered) with
      | error failure => rfl
      | ok part =>
        show mergeChildren schema other place partner (used ++ [counterpart]) _ into others = _
        simp only [hgo, List.append_assoc]
        cases mergeRow place (theirs.map numbered) (others.map (·.2.toLabel)) <;> rfl

/-- The merged schema is the tree of the merged rows. -/
theorem merge_eq_mergeRows (ha : schema.Linked) (hb : other.Linked) :
    schema.merge other = schema.mergeRows other := by
  rw [merge, mergeChildren_eq ha hb (ha.spans_children root) (hb.spans_children root) .empty [] rfl]
  show (mergeRow .empty (numberedBelow other) (schema.labelsBelow root)).map _ = _
  rw [mergeRows]
  cases mergeRow .empty (numberedBelow other) (schema.labelsBelow root) with
  | error failure => rfl
  | ok row => exact congrArg Except.ok (Tree.ofOutline_eq ⟨_, _⟩).symm

end Nodes

end Schema

end Conform
