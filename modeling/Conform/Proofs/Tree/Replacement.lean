import Conform.Proofs.Tree.Moves
/-!
# Removing and replacing by name

The children of one name leave their parent in one step, each with all below
it. They are found before the first of them leaves and lie apart from each
other, so what one of them takes along does not depend on which left before.
A tree that replaces them comes last and is then the only child of its name.
-/

namespace Conform

universe u

def Node.dropChildren {P : Type u} (node : Node P) (doomed : List NodeId) : Node P :=
  { node with children := node.children.filter (· ∉ doomed) }

namespace Tree

variable {P : Type u} {tree left : Tree P}

theorem dropChildren_nil (node : Node P) : node.dropChildren [] = node := by
  simp [Node.dropChildren]

theorem dropChildren_cons (node : Node P) (id : NodeId) (rest : List NodeId) :
    node.dropChildren (id :: rest) = (node.dropChild id).dropChildren rest := by
  simp only [Node.dropChildren, Node.dropChild, filter_not_mem_cons]

/-- What is left of a tree when some children of a parent have gone with all below them: the other
nodes, of which only the parent has changed. -/
structure Cleared (tree left : Tree P) (parent : NodeId) (doomed : List NodeId) : Prop where
  contains_iff (other : NodeId) : left.contains other = true ↔
    tree.contains other = true ∧ ∀ id ∈ doomed, ¬tree.isAbove id other = true
  find?_eq {other : NodeId} (stays : left.contains other = true) : left.find? other =
    if other = parent then (tree.find? parent).map (·.dropChildren doomed) else tree.find? other

theorem Linked.lineage_prune (h : tree.Linked) {id other : NodeId} (hroot : id ≠ root)
    (hid : tree.contains id = true) (hother : tree.contains other = true)
    (houtside : ¬tree.isAbove id other = true) :
    (tree.prune id).lineage other = tree.lineage other := by
  apply h.lineage_congr (h.prune hroot) hother houtside
  intro node _ hnot
  exact h.parent?_prune hid hnot

theorem Linked.cleared_cons (h : tree.Linked) {parent id : NodeId} {rest : List NodeId}
    (hlink : tree.parent? id = some parent) (hrest : (tree.prune id).Cleared left parent rest) :
    tree.Cleared left parent (id :: rest) := by
  have hid := contains_of_parent? hlink
  have habove : ∀ {other}, tree.contains other = true → ¬tree.isAbove id other = true →
      ∀ top, (tree.prune id).isAbove top other = tree.isAbove top other := by
    intro other hother houtside top
    rw [isAbove, isAbove, h.lineage_prune (h.ne_root_of_parent? hlink) hid hother houtside]
  constructor
  · intro other
    rw [hrest.contains_iff, h.contains_prune_iff hid, List.forall_mem_cons]
    constructor
    · rintro ⟨⟨hother, houtside⟩, hothers⟩
      refine ⟨hother, houtside, fun top htop => ?_⟩
      rw [← habove hother houtside]
      exact hothers top htop
    · rintro ⟨hother, houtside, hothers⟩
      refine ⟨⟨hother, houtside⟩, fun top htop => ?_⟩
      rw [habove hother houtside]
      exact hothers top htop
  · intro other hstays
    have hpruned := (hrest.contains_iff other).mp hstays
    have houtside := ((h.contains_prune_iff hid other).mp hpruned.1).2
    rw [hrest.find?_eq hstays]
    by_cases heq : other = parent
    · subst heq
      rw [if_pos rfl, if_pos rfl, h.find?_prune_of_not_isAbove hid houtside, if_pos hlink,
        Option.map_map]
      congr 1
      funext node
      exact (dropChildren_cons node id rest).symm
    · rw [if_neg heq, if_neg heq, h.find?_prune_of_not_isAbove hid houtside, if_neg]
      rw [hlink, Option.some.injEq]
      exact fun hsame => heq hsame.symm

theorem Linked.cleared_foldl_prune (h : tree.Linked) {parent : NodeId} {doomed : List NodeId}
    (hdoomed : ∀ id ∈ doomed, tree.parent? id = some parent) (hnodup : doomed.Nodup) :
    tree.Cleared (doomed.foldl Tree.prune tree) parent doomed := by
  induction doomed generalizing tree with
  | nil =>
    constructor
    · simp
    · intro other _
      by_cases heq : other = parent
      · simp [heq, dropChildren_nil]
      · rw [if_neg heq, List.foldl_nil]
  | cons id rest ih =>
    have hlink := hdoomed id List.mem_cons_self
    obtain ⟨hnew, hnodup⟩ := List.nodup_cons.mp hnodup
    apply h.cleared_cons hlink
    apply ih (h.prune (h.ne_root_of_parent? hlink)) _ hnodup
    intro other hother
    have hsibling := hdoomed other (List.mem_cons_of_mem _ hother)
    rw [h.parent?_prune (contains_of_parent? hlink), hsibling]
    rw [h.isAbove_child_iff hsibling]
    rintro (rfl | habove)
    · exact hnew hother
    · exact h.not_isAbove_parent hlink habove

theorem Cleared.label? {parent : NodeId} {doomed : List NodeId}
    (hcleared : tree.Cleared left parent doomed) {other : NodeId}
    (hstays : left.contains other = true) : left.label? other = tree.label? other := by
  rw [Tree.label?, Tree.label?, hcleared.find?_eq hstays]
  by_cases heq : other = parent
  · rw [if_pos heq, heq, Option.map_map]
    rfl
  · rw [if_neg heq]

theorem Cleared.parent? {parent : NodeId} {doomed : List NodeId}
    (hcleared : tree.Cleared left parent doomed) {other : NodeId}
    (hstays : left.contains other = true) : left.parent? other = tree.parent? other := by
  rw [Tree.parent?, Tree.parent?, hcleared.find?_eq hstays]
  by_cases heq : other = parent
  · rw [if_pos heq, heq, Option.bind_map]
    rfl
  · rw [if_neg heq]

/-! ## Children of one name -/

def childrenNamed (tree : Tree P) (parent : NodeId) (name : String) : List NodeId :=
  (tree.children parent).filter fun child => tree.name? child == some name

theorem mem_childrenNamed {parent child : NodeId} {name : String} :
    child ∈ tree.childrenNamed parent name ↔
      child ∈ tree.children parent ∧ tree.name? child = some name := by
  simp [childrenNamed]

theorem name?_eq_bind (tree : Tree P) (id : NodeId) :
    tree.name? id = (tree.label? id).bind (·.name?) := by
  rw [name?, label?, Option.bind_map]
  rfl

theorem childNamed?_of_children_eq {parent new : NodeId} {row : List NodeId} {name : String}
    (hrow : tree.children parent = row ++ [new])
    (hothers : ∀ child ∈ row, tree.name? child ≠ some name)
    (hnew : tree.name? new = some name) : tree.childNamed? parent name = some new := by
  have hnone : row.find? (fun child => tree.name? child == some name) = none := by
    apply List.find?_eq_none.mpr
    intro child hchild
    simpa using hothers child hchild
  rw [childNamed?, hrow, List.find?_append, hnone]
  simp [hnew]

namespace Linked

variable {parent : NodeId} {name : String}

theorem cleared_removeChild (h : tree.Linked) (parent : NodeId) (name : String) :
    tree.Cleared (tree.removeChild parent name).1 parent (tree.childrenNamed parent name) := by
  apply h.cleared_foldl_prune
  · intro child hchild
    exact (h.mem_children_iff parent child).mp (mem_childrenNamed.mp hchild).1
  · exact (h.nodup_children parent).filter _

theorem contains_removeChild_iff (h : tree.Linked) (other : NodeId) :
    (tree.removeChild parent name).1.contains other = true ↔
      tree.contains other = true ∧ ¬∃ child ∈ tree.children parent,
        tree.name? child = some name ∧ other ∈ tree.descendants child := by
  rw [(h.cleared_removeChild parent name).contains_iff]
  constructor
  · rintro ⟨hother, houtside⟩
    refine ⟨hother, ?_⟩
    rintro ⟨child, hchild, hname, hbelow⟩
    apply houtside child (mem_childrenNamed.mpr ⟨hchild, hname⟩)
    exact ((h.mem_descendants_iff (h.contains_child hchild) other).mp hbelow).2
  · rintro ⟨hother, houtside⟩
    refine ⟨hother, fun child hdoomed habove => houtside ?_⟩
    obtain ⟨hchild, hname⟩ := mem_childrenNamed.mp hdoomed
    refine ⟨child, hchild, hname, ?_⟩
    exact (h.mem_descendants_iff (h.contains_child hchild) other).mpr ⟨hother, habove⟩

theorem contains_removeChild_parent (h : tree.Linked) (name : String)
    (hparent : tree.contains parent = true) :
    (tree.removeChild parent name).1.contains parent = true := by
  apply ((h.cleared_removeChild parent name).contains_iff parent).mpr
  refine ⟨hparent, fun child hdoomed => ?_⟩
  have hlink := (h.mem_children_iff parent child).mp (mem_childrenNamed.mp hdoomed).1
  exact h.not_isAbove_parent hlink

theorem find?_removeChild_parent (h : tree.Linked) (parent : NodeId) (name : String) :
    (tree.removeChild parent name).1.find? parent = (tree.find? parent).map fun node =>
      { node with children := node.children.filter fun child => tree.name? child != some name } := by
  cases hnode : tree.find? parent with
  | none =>
    have hgone : ¬(tree.removeChild parent name).1.contains parent = true := by
      rw [h.contains_removeChild_iff, contains, hnode]
      simp
    simpa [contains] using hgone
  | some node =>
    have hstays := h.contains_removeChild_parent name (contains_iff.mpr ⟨node, hnode⟩)
    rw [(h.cleared_removeChild parent name).find?_eq hstays, if_pos rfl, hnode, Option.map_some,
      Option.map_some, Node.dropChildren]
    congr 2
    apply List.filter_congr
    intro child hchild
    rw [← children_of_find? hnode] at hchild
    by_cases hname : tree.name? child = some name <;> simp [mem_childrenNamed, hchild, hname]

theorem children_removeChild (h : tree.Linked) (parent : NodeId) (name : String) :
    (tree.removeChild parent name).1.children parent =
      (tree.children parent).filter fun child => tree.name? child != some name := by
  rw [children, children, h.find?_removeChild_parent]
  cases tree.find? parent <;> rfl

end Linked

theorem replaceChild_eq {other : Tree P} {name : String} (hname : other.name? root = some name)
    (parent : NodeId) :
    tree.replaceChild parent other = (tree.removeChild parent name).1.graft parent other := by
  rw [replaceChild, hname]

theorem Linked.childNamed?_graft_removeChild (h : tree.Linked) {parent : NodeId} {name : String}
    {other : Tree P} {outline : Outline P} (hparent : tree.contains parent = true)
    (houtline : other.outline? root = some outline) (hname : outline.root.name? = some name) :
    ((tree.removeChild parent name).1.graft parent other).1.childNamed? parent name =
      some tree.bound := by
  have hleft := h.removeChild parent name
  have hkept := h.contains_removeChild_parent name hparent
  have hrow := children_graft hkept houtline (lt_bound_of_contains hkept)
  rw [if_pos rfl, bound_removeChild] at hrow
  apply childNamed?_of_children_eq hrow
  · intro child hchild
    have hstays := hleft.contains_child hchild
    rw [name?_eq_bind, label?_graft hkept houtline (lt_bound_of_contains hstays),
      (h.cleared_removeChild parent name).label? hstays, ← name?_eq_bind]
    rw [h.children_removeChild, List.mem_filter, bne_iff_ne] at hchild
    exact hchild.2
  · have hlabel := label?_graft_bound hkept houtline
    rw [bound_removeChild] at hlabel
    rw [name?_eq_bind, hlabel, Option.bind_some, hname]

/-- The children of a name go with all below them, as many as the answer says, and of the other nodes
only the parent changes, which keeps its other children in order. A known parent in which a tree takes
the place of the children that bear the name of its root has that tree's copy as its last child, which
is then the only child of that name. -/
theorem removeChild_and_replaceChild_rows {good : P → Prop} (hreach : Reachable good tree) :
    (∀ parent name, ∃ left, tree.removeChild parent name = (left,
        ((tree.children parent).filter fun child => tree.name? child == some name).length) ∧
      (∀ other, left.contains other = true ↔ tree.contains other = true ∧
        ¬∃ child ∈ tree.children parent,
          tree.name? child = some name ∧ other ∈ tree.descendants child) ∧
      (∀ other, other ≠ parent → left.contains other = true →
        left.find? other = tree.find? other) ∧
      left.find? parent = (tree.find? parent).map fun node => { node with
        children := node.children.filter fun child => tree.name? child != some name }) ∧
    ∀ (source : P → Prop) (other : Tree P), Reachable source other →
      ∀ parent name, tree.contains parent = true → other.name? root = some name →
      ∃ result new forest copy, tree.replaceChild parent other = (result, .ok new) ∧
        result.children parent =
          (tree.children parent).filter (fun child => tree.name? child != some name) ++ [new] ∧
        result.childNamed? parent name = some new ∧
        other.Spans [root] forest ∧ result.Spans [new] copy ∧
        copy.map (·.2.toLabel) = forest.map (·.2.toLabel) ∧
        ∀ id ∈ copy.numbers, ¬tree.contains id = true := by
  have h := hreach.linked
  constructor
  · intro parent name
    refine ⟨(tree.removeChild parent name).1, rfl, h.contains_removeChild_iff, ?_,
      h.find?_removeChild_parent parent name⟩
    intro other hother hstays
    rw [(h.cleared_removeChild parent name).find?_eq hstays, if_neg hother]
  · intro source other hother parent name hparent hname
    have hother := hother.linked
    obtain ⟨node, hnode⟩ := contains_iff.mp hother.contains_root
    have houtline := outline?_of_find? hnode
    rw [name?_of_outline? houtline] at hname
    have hkept := h.contains_removeChild_parent name hparent
    have hanswer : tree.replaceChild parent other =
        (((tree.removeChild parent name).1.graft parent other).1, .ok tree.bound) := by
      rw [replaceChild_eq ((name?_of_outline? houtline).trans hname),
        graft_eq_update hkept houtline, bound_removeChild]
    obtain ⟨copy, hcopy, hlabels, hnumbers⟩ := spans_graft hkept houtline
    rw [bound_removeChild] at hcopy hnumbers
    refine ⟨_, _, _, copy, hanswer, ?_, h.childNamed?_graft_removeChild hparent houtline hname,
      hother.spans_singleton hnode, hcopy, hlabels, ?_⟩
    · rw [children_graft hkept houtline (lt_bound_of_contains hkept), if_pos rfl,
        h.children_removeChild, bound_removeChild]
    · intro id hid
      rw [hnumbers] at hid
      exact not_contains_of_mem_range' hid

private def street : Tree Nat :=
  ofOutline ⟨⟨some "street", 0⟩,
    .cons ⟨some "house", 1⟩ (.cons ⟨some "attic", 2⟩ .nil .nil)
      (.cons ⟨some "shop", 3⟩ .nil
        (.cons ⟨some "house", 4⟩ (.cons ⟨some "cellar", 5⟩ .nil .nil) .nil))⟩

private def tower : Tree Nat :=
  ofOutline ⟨⟨some "house", 7⟩, .cons ⟨some "stairs", 8⟩ .nil .nil⟩

theorem removeChild_and_replaceChild_rows_street :
    Reachable (fun _ => True) street ∧ Reachable (fun _ => True) tower ∧
    (∃ left, street.removeChild root "house" = (left, 2) ∧ left.contains 3 = true ∧
      ¬left.contains 5 = true ∧ left.find? 3 = street.find? 3) ∧
    ∃ result copy, street.replaceChild root tower = (result, .ok 6) ∧
      result.children root = [3, 6] ∧ result.childNamed? root "house" = some 6 ∧
      result.Spans [6] copy ∧ copy.map (·.2.toLabel) =
        .cons ⟨some "house", 7⟩ (.cons ⟨some "stairs", 8⟩ .nil .nil) .nil := by
  have hstreet : Reachable (fun _ => True) street :=
    reachable_ofOutline _ trivial fun _ _ => trivial
  have htower : Reachable (fun _ => True) tower := reachable_ofOutline _ trivial fun _ _ => trivial
  obtain ⟨hremove, hreplace⟩ := removeChild_and_replaceChild_rows hstreet
  refine ⟨hstreet, htower, ?_, ?_⟩
  · obtain ⟨left, hanswer, hcontains, hothers, _⟩ := hremove root "house"
    have hshop : left.contains 3 = true := (hcontains 3).mpr (by decide)
    have hcellar : ¬left.contains 5 = true := by
      rw [hcontains]
      decide
    exact ⟨left, hanswer, hshop, hcellar, hothers 3 (by decide) hshop⟩
  · obtain ⟨result, new, forest, copy, hanswer, hrow, hnamed, hsource, hcopy, hlabels, _⟩ :=
      hreplace _ tower htower root "house" rfl rfl
    have hnew : (street.replaceChild root tower).2 = .ok 6 := rfl
    rw [hanswer] at hnew
    cases hnew
    refine ⟨result, copy, hanswer, hrow, hnamed, hcopy, ?_⟩
    have houtline : tower.outline? root =
        some ⟨⟨some "house", 7⟩, .cons ⟨some "stairs", 8⟩ .nil .nil⟩ := rfl
    rw [hlabels, ← htower.linked.branches_eq hsource (apart_singleton tower root),
      htower.linked.labels_branches houtline]

end Tree

end Conform
