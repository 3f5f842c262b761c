import Conform.Proofs.Tree.Outlines
import Conform.Proofs.Tree.Visits
/-!
# Frames of planted outlines

Payloads leave no trace in the frame of a tree. Outlines with the same names in
the same shape are planted to trees of one frame, and trees of one frame have
such outlines.
-/

namespace Conform

universe u

namespace Tree

variable {P : Type u}

theorem name?_grow (tree : Tree P) (parent : NodeId) (label : Label P) (id : NodeId) :
    (tree.grow parent label).name? id = if id = tree.bound then label.name? else tree.name? id := by
  have hupdate : (tree.grow parent label).name? id =
      (tree.push ⟨label, some parent, []⟩).name? id := by
    rw [grow, name?, name?, find?_update]
    by_cases h : id = parent
    · subst h
      cases (tree.push ⟨label, some id, []⟩).find? id <;> simp [Node.addChild]
    · rw [if_neg h]
  rw [hupdate, name?, find?_push]
  split <;> rfl

namespace SameFrame

variable {tree other : Tree P}

theorem find?_or (h : tree.SameFrame other) (id : NodeId) :
    (tree.find? id = none ∧ other.find? id = none) ∨
      ∃ node node', tree.find? id = some node ∧ other.find? id = some node' ∧
        node.name? = node'.name? ∧ node.children = node'.children := by
  have hcontains := h.contains id
  have hname := h.name? id
  have hchildren := h.children id
  rw [Tree.contains, Tree.contains] at hcontains
  cases hnode : tree.find? id with
  | none =>
    rw [hnode, Option.isSome_none, eq_comm, Option.isSome_eq_false_iff, Option.isNone_iff_eq_none]
      at hcontains
    exact .inl ⟨rfl, hcontains⟩
  | some node =>
    rw [hnode, Option.isSome_some, eq_comm, Option.isSome_iff_exists] at hcontains
    obtain ⟨node', hnode'⟩ := hcontains
    rw [children_of_find? hnode, children_of_find? hnode'] at hchildren
    rw [name?_of_find? hnode, name?_of_find? hnode'] at hname
    exact .inr ⟨node, node', rfl, hnode', hname, hchildren⟩

theorem grow (h : tree.SameFrame other) {parent : NodeId} (hparent : tree.contains parent = true)
    {label label' : Label P} (hname : label.name? = label'.name?) :
    (tree.grow parent label).SameFrame (other.grow parent label') where
  bound := by simp [Tree.grow, h.bound]
  contains id := by
    rw [Bool.eq_iff_iff, contains_grow, contains_grow, h.bound, h.contains]
  name? id := by rw [name?_grow, name?_grow, h.bound, hname, h.name?]
  parent? id := by rw [parent?_grow, parent?_grow, h.bound, h.parent?]
  children id := by
    have hparent' : other.contains parent = true := by rwa [← h.contains]
    rw [children_grow hparent, children_grow hparent', h.bound, h.children, h.children]

theorem sprout (h : tree.SameFrame other) {forest forest' : Forest (Label P)}
    (hnames : forest.map (·.name?) = forest'.map (·.name?))
    {parent : NodeId} (hparent : tree.contains parent = true) :
    (sprout parent forest tree).SameFrame (Tree.sprout parent forest' other) := by
  induction forest generalizing forest' tree other parent with
  | nil =>
    cases forest' with
    | nil => exact h
    | cons => cases hnames
  | cons label below rest ihbelow ihrest =>
    cases forest' with
    | nil => cases hnames
    | cons label' below' rest' =>
      simp only [Forest.map, Forest.cons.injEq] at hnames
      have hgrown := h.grow hparent hnames.1
      have hnew : (tree.grow parent label).contains tree.bound = true := contains_grow_bound _ _ _
      have hkept : (tree.grow parent label).contains parent = true :=
        (contains_grow _ _ _ _).mpr (.inr hparent)
      rw [Tree.sprout, Tree.sprout, ← h.bound]
      exact ihrest (ihbelow hgrown hnames.2.1 hnew) hnames.2.2 (contains_sprout below hkept)

/-- Outlines with the same names are planted to the same numbers and links. -/
theorem ofOutline {outline outline' : Outline P}
    (hroot : outline.root.name? = outline'.root.name?)
    (hbelow : outline.below.map (·.name?) = outline'.below.map (·.name?)) :
    (ofOutline outline).SameFrame (Tree.ofOutline outline') := by
  rw [ofOutline_eq, ofOutline_eq]
  have hsingle : (single outline.root).SameFrame (single outline'.root) := by
    refine ⟨rfl, fun id => ?_, fun id => ?_, fun id => ?_, fun id => ?_⟩
    · cases id <;> rfl
    · cases id with
      | zero => exact hroot
      | succ id => rfl
    · cases id <;> rfl
    · cases id <;> rfl
  exact hsingle.sprout hbelow rfl

theorem map_labelsBelow (h : tree.SameFrame other) (id : NodeId) :
    (tree.labelsBelow id).map (·.name?) = (other.labelsBelow id).map (·.name?) := by
  have hrow : ∀ steps ids,
      ((tree.forestAt steps ids).map (·.2.toLabel)).map (·.name?) =
        ((other.forestAt steps ids).map (·.2.toLabel)).map (·.name?) := by
    intro steps
    induction steps with
    | zero =>
      intro ids
      cases ids <;> rfl
    | succ steps ih =>
      intro ids
      cases ids with
      | nil => rfl
      | cons id rest =>
        rcases h.find?_or id with ⟨hnone, hnone'⟩ | ⟨node, node', hnode, hnode', hname, hchildren⟩
        · simp only [forestAt, hnone, hnone', ih]
        · simp only [forestAt, hnode, hnode', Forest.map, hname, hchildren, ih]
  rw [labelsBelow, labelsBelow, branches, branches, h.bound, h.children]
  exact hrow _ _

theorem descendants (h : tree.SameFrame other) (start : NodeId) :
    tree.descendants start = other.descendants start := by
  have hgather : ∀ budget ids, tree.gather budget ids = other.gather budget ids := by
    intro budget
    induction budget with
    | zero =>
      intro ids
      cases ids <;> rfl
    | succ budget ih =>
      intro ids
      cases ids with
      | nil => rfl
      | cons id rest =>
        rcases h.find?_or id with ⟨hnone, hnone'⟩ | ⟨node, node', hnode, hnode', _, hchildren⟩
        · simp only [gather, hnone, hnone', ih]
        · simp only [gather, hnode, hnode', hchildren, ih]
  rw [Tree.descendants, Tree.descendants, h.bound, hgather]

theorem leaves (h : tree.SameFrame other) : tree.leaves = other.leaves := by
  rw [Tree.leaves, Tree.leaves, h.descendants]
  exact List.filter_congr fun id _ => h.isLeaf id

end SameFrame

end Tree

end Conform
