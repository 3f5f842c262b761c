import Mathlib.Data.List.Find
import Conform.Proofs.Attribute
import Conform.Proofs.Tree.Addresses
import Conform.Proofs.Tree.Reachable
import Conform.Request.Document
/-!
# Paths into documents

The keys of an object that is made of a node are the names of its children,
and of several children of one name the last is the one that stays. So keys
lead through the document of a request to the same places as names lead
through the request itself when at every step the last child of a name is
taken. Paths take the first: they lead to the same place where no node on the
way has a later sibling of its name.
-/

namespace Conform

universe u

/-- The document at a way of keys through objects. -/
def Doc.at? : Doc → List String → Option Doc
  | doc, [] => some doc
  | object fields, key :: rest => (fields.lookup key).bind fun doc => doc.at? rest
  | _, _ :: _ => none

namespace Tree

variable {P : Type u} {tree : Tree P}

/-- The last child with this name, where a child without one has the empty name. -/
def lastTitled? (tree : Tree P) (id : NodeId) (title : String) : Option NodeId :=
  (tree.children id).reverse.find? fun child => tree.title child == title

/-- Follows names downward, at each step to the last child of that name. -/
def followLast? (tree : Tree P) (id : NodeId) : List String → Option NodeId
  | [] => some id
  | name :: rest => (tree.lastTitled? id name).bind (tree.followLast? · rest)

/-- No later sibling of a node has its name. -/
def LastOfTitle (tree : Tree P) (id : NodeId) : Prop :=
  ∀ parent, tree.parent? id = some parent → tree.lastTitled? parent (tree.title id) = some id

theorem mem_children_of_lastTitled? {id child : NodeId} {title : String}
    (h : tree.lastTitled? id title = some child) : child ∈ tree.children id :=
  List.mem_reverse.mp (List.mem_of_find?_eq_some h)

theorem Linked.followLast?_of_follow? (h : tree.Linked) {start id : NodeId} {names : List String}
    (hstart : tree.contains start = true) (hfound : tree.follow? start names = some id)
    (hlast : ∀ ancestor, tree.Above ancestor id → tree.LastOfTitle ancestor) :
    tree.followLast? start names = some id := by
  induction names generalizing start with
  | nil => exact hfound
  | cons name rest ih =>
    rw [follow?] at hfound
    split at hfound
    · next child hchild =>
      obtain ⟨hmem, htitle⟩ := mem_children_of_childNamed? hchild
      have hheld := h.contains_child hmem
      have habove := (h.path_of_follow? hheld hfound).1
      have hstep := hlast child habove start ((h.mem_children_iff start child).mp hmem)
      rw [followLast?, ← htitle, hstep, Option.bind_some]
      exact ih hheld hfound
    · cases hfound

end Tree

namespace Request

def docAt (request : Request) (id : NodeId) : Doc := (request.outline? id).elim .null outlineDoc

theorem docAt_of_find? {request : Request} {id : NodeId} {node : Node Attribute}
    (hnode : request.find? id = some node) :
    request.docAt id = outlineDoc ⟨node.toLabel, request.labelsBelow id⟩ := by
  rw [docAt, Tree.outline?_of_find? hnode, Option.elim_some]

theorem at?_leafDoc (a : Attribute) (key : String) (rest : List String) :
    (leafDoc a).at? (key :: rest) = none := by
  rw [leafDoc]
  cases a.value? with
  | none => rfl
  | some value =>
    rw [Option.elim_some]
    cases value with
    | float x =>
      rw [valueDoc]
      split <;> rfl
    | _ => rw [valueDoc]; rfl

theorem lookup_fieldsOnto (fields : List (String × Doc)) (row : Forest (Label Attribute))
    (key : String) :
    (fieldsOnto fields row).lookup key =
      ((row.trees.reverse.find? fun tree => tree.1.title == key).map fun tree =>
        outlineDoc ⟨tree.1, tree.2⟩).or (fields.lookup key) := by
  induction row generalizing fields with
  | nil => rfl
  | cons label below rest _ ih =>
    have hdoc : fieldsOnto fields (.cons label below rest) =
        fieldsOnto (Keyed.insert label.title (outlineDoc ⟨label, below⟩) fields) rest := rfl
    rw [hdoc, ih, Keyed.lookup_insert, Forest.trees_cons, List.reverse_cons, List.find?_append]
    cases rest.trees.reverse.find? fun tree => tree.1.title == key with
    | some later => rfl
    | none =>
      by_cases hkey : key = label.title
      · simp [hkey]
      · simp [hkey, Ne.symm hkey]

/-- The fields of an object made of a node are the documents of its last children of each name. -/
theorem lookup_fieldsOnto_labelsBelow {request : Request} (h : Tree.Linked request) (id : NodeId)
    (key : String) :
    (fieldsOnto [] (request.labelsBelow id)).lookup key =
      (request.lastTitled? id key).map request.docAt := by
  rw [lookup_fieldsOnto, h.trees_labelsBelow, ← List.filterMap_reverse, List.find?_filterMap]
  have htest : ∀ child ∈ (request.children id).reverse,
      ((request.outline? child).map fun outline => (outline.root, outline.below)).any
        (fun tree => tree.1.title == key) = (request.title child == key) := by
    intro child hchild
    obtain ⟨node, hnode⟩ :=
      Tree.contains_iff.mp (h.contains_child (List.mem_reverse.mp hchild))
    rw [Tree.outline?_of_find? hnode, Tree.title_of_find? hnode]
    rfl
  rw [List.find?_congr htest, ← Tree.lastTitled?]
  cases hchild : request.lastTitled? id key with
  | none => rfl
  | some child =>
    obtain ⟨node, hnode⟩ :=
      Tree.contains_iff.mp (h.contains_child (Tree.mem_children_of_lastTitled? hchild))
    simp [docAt, Tree.outline?_of_find? hnode]

/-- Keys lead to the documents of the nodes that the last children of their names lead to. -/
theorem at?_docAt {request : Request} (h : Tree.Linked request) {id : NodeId}
    (hid : request.contains id = true) (names : List String) :
    (request.docAt id).at? names = (request.followLast? id names).map request.docAt := by
  induction names generalizing id with
  | nil =>
    rw [Tree.followLast?, Doc.at?]
    rfl
  | cons name rest ih =>
    obtain ⟨node, hnode⟩ := Tree.contains_iff.mp hid
    have hleaf := h.isLeaf_of_outline? (Tree.outline?_of_find? hnode)
    rw [docAt_of_find? hnode, outlineDoc, Tree.followLast?]
    split
    · next hbelow =>
      have hnone : request.lastTitled? id name = none := by
        rw [Tree.lastTitled?, List.isEmpty_iff.mp (hleaf.trans hbelow)]
        rfl
      rw [at?_leafDoc, hnone]
      rfl
    · rw [Doc.at?, lookup_fieldsOnto_labelsBelow h]
      cases hchild : request.lastTitled? id name with
      | none => rfl
      | some child => exact ih (h.contains_child (Tree.mem_children_of_lastTitled? hchild))

theorem docAt_of_isLeaf {request : Request} (h : Tree.Linked request) {id : NodeId} {a : Attribute}
    (ha : request.payload? id = some a) (hleaf : request.isLeaf id = true) :
    request.docAt id = a.value?.elim .null valueDoc := by
  obtain ⟨node, hnode, rfl⟩ := Tree.payload?_eq_some_iff.mp ha
  rw [h.isLeaf_of_outline? (Tree.outline?_of_find? hnode)] at hleaf
  rw [docAt_of_find? hnode, outlineDoc, if_pos hleaf]
  rfl

/-- Keys lead from the document of a request to the document of the node that is found by taking the
last child of each name. So a path that leads to a node is a way of keys to its document where
neither the node nor one above it has a later sibling of its name. A leaf has the document of the
value at its path. -/
theorem toDoc_at? {good : Attribute → Prop} {request : Request}
    (hreach : Tree.Reachable good request) :
    (∀ path : Path, request.toDoc.at? path.segments =
      (request.followLast? Tree.root path.segments).map request.docAt) ∧
    ∀ path id, request.resolve? Tree.root path = some id →
      ((∀ ancestor, request.Above ancestor id → request.LastOfTitle ancestor) →
        request.toDoc.at? path.segments = some (request.docAt id)) ∧
      (request.isLeaf id = true → request.docAt id =
        ((request.payloadAt? path).bind (·.value?)).elim .null valueDoc) := by
  have h := hreach.linked
  have hkeys : ∀ path : Path, request.toDoc.at? path.segments =
      (request.followLast? Tree.root path.segments).map request.docAt := fun path =>
    at?_docAt h h.contains_root path.segments
  refine ⟨hkeys, fun path id hid => ?_⟩
  have hfollow := hid
  rw [h.resolve?_root] at hfollow
  refine ⟨fun hlast => ?_, fun hleaf => ?_⟩
  · rw [hkeys, h.followLast?_of_follow? h.contains_root hfollow hlast, Option.map_some]
  · obtain ⟨a, ha⟩ :=
      Tree.contains_iff_payload?.mp (h.contains_of_follow? h.contains_root hfollow)
    rw [docAt_of_isLeaf h ha hleaf, Tree.payloadAt?, hid, Option.bind_some, ha, Option.bind_some]

private def crate : Request :=
  Tree.ofOutline ⟨⟨some "crate", .blank⟩,
    .cons ⟨some "label", .string "torn"⟩ .nil
      (.cons ⟨some "box", .blank⟩
        (.cons ⟨some "label", .string "empty"⟩ .nil (.cons ⟨some "label", .string "full"⟩ .nil .nil))
        (.cons ⟨some "label", .string "legible"⟩ .nil .nil))⟩

private theorem reachable_crate : Tree.Reachable Attribute.Obtainable crate := by
  apply Tree.reachable_ofOutline
  · exact .blank
  · simp only [Forest.preorder, List.cons_append, List.nil_append, List.forall_mem_cons]
    exact ⟨.string _, .blank, .string _, .string _, .string _,
      fun _ hlabel => absurd hlabel List.not_mem_nil⟩

theorem toDoc_at?_crate :
    Tree.Reachable Attribute.Obtainable crate ∧
    crate.toDoc.at? ["box", "label"] = some (.string "full") ∧
    crate.resolve? Tree.root ⟨["box"]⟩ = some 2 ∧
    (∀ ancestor, crate.Above ancestor 2 → crate.LastOfTitle ancestor) ∧
    crate.toDoc.at? ["box"] = some (crate.docAt 2) ∧
    crate.resolve? Tree.root ⟨["box", "label"]⟩ = some 3 ∧
    crate.docAt 3 = .string "empty" := by
  have hlast : ∀ ancestor, crate.Above ancestor 2 → crate.LastOfTitle ancestor := by
    intro ancestor habove parent hparent
    have hmem := (reachable_crate.linked.isAbove_iff (show crate.contains 2 = true from rfl)).mpr
      habove
    have hline : ancestor ∈ [2, 0] := List.contains_iff_mem.mp hmem
    rcases List.mem_cons.mp hline with rfl | hline
    · cases hparent
      rfl
    · rw [List.mem_singleton.mp hline] at hparent
      cases hparent
  obtain ⟨hkeys, hplaces⟩ := toDoc_at? reachable_crate
  refine ⟨reachable_crate, hkeys ⟨["box", "label"]⟩, rfl, hlast,
    (hplaces ⟨["box"]⟩ 2 rfl).1 hlast, rfl, ?_⟩
  exact (hplaces ⟨["box", "label"]⟩ 3 rfl).2 rfl

/-- The label that a path leads to is lost to a later one of its name. -/
theorem toDoc_keeps_last : ¬∀ request : Request, Tree.Reachable Attribute.Obtainable request →
    ∀ path id, request.resolve? Tree.root path = some id →
      request.toDoc.at? path.segments = some (request.docAt id) := by
  intro hagree
  have hlabel := hagree crate reachable_crate ⟨["label"]⟩ 1 rfl
  have hlast : crate.toDoc.at? ["label"] = some (.string "legible") := rfl
  have hfirst : crate.docAt 1 = .string "torn" := rfl
  rw [hlast, hfirst] at hlabel
  simp at hlabel

end Request

end Conform
