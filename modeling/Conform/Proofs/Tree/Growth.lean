import Conform.Proofs.Tree.Branches
import Conform.Tree.Edit
/-!
# Growth

Nodes are added one at a time, each as the last child of its parent. Planting
a forest fills the slots first and hangs the new row below its parent at the
end; it leaves the same tree as adding the nodes one by one in pre-order. So
it is enough to know what one new leaf does.
-/

namespace Conform.Tree

universe u

variable {P : Type u}

theorem ext_find? {tree other : Tree P} (hbound : tree.bound = other.bound)
    (hfind : ∀ id, tree.find? id = other.find? id) : tree = other := by
  obtain ⟨slots⟩ := tree
  obtain ⟨otherSlots⟩ := other
  refine congrArg Tree.mk (Array.ext hbound fun i hi hi' => ?_)
  have h := hfind i
  simpa [find?, hi, hi'] using h

theorem update_update (tree : Tree P) (id : NodeId) (first second : Node P → Node P) :
    (tree.update id first).update id second = tree.update id (second ∘ first) := by
  refine ext_find? (by simp) fun other => ?_
  rw [find?_update, find?_update, find?_update, find?_update, if_pos rfl, Option.map_map]
  split <;> rfl

theorem update_comm (tree : Tree P) {id other : NodeId} (hne : id ≠ other)
    (first second : Node P → Node P) :
    (tree.update id first).update other second = (tree.update other second).update id first := by
  refine ext_find? (by simp) fun slot => ?_
  simp only [find?_update, if_neg hne, if_neg hne.symm]
  by_cases hid : slot = id
  · subst hid
    simp [hne]
  · simp [hid]

theorem push_update {tree : Tree P} {id : NodeId} (hid : tree.contains id = true)
    (change : Node P → Node P) (node : Node P) :
    (tree.update id change).push node = (tree.push node).update id change := by
  have hne : id ≠ tree.bound := Nat.ne_of_lt (lt_bound_of_contains hid)
  refine ext_find? (by simp) fun other => ?_
  simp only [find?_update, find?_push, bound_update, if_neg hne]
  by_cases hother : other = tree.bound
  · subst hother
    simp [hne.symm]
  · simp [hother]

theorem update_congr (tree : Tree P) {id : NodeId} {node : Node P} (hnode : tree.find? id = some node)
    (first second : Node P → Node P) (hsame : first node = second node) :
    tree.update id first = tree.update id second := by
  simp only [update, hnode, hsame]

/-! ## One new leaf -/

/-- The tree with a new leaf as the last child of a parent. -/
def grow (tree : Tree P) (parent : NodeId) (label : Label P) : Tree P :=
  (tree.push ⟨label, some parent, []⟩).update parent (·.addChild tree.bound)

theorem addChild_eq {tree : Tree P} {parent : NodeId} (h : tree.contains parent = true)
    (name : String) (payload : P) :
    tree.addChild parent name payload = (tree.grow parent ⟨some name, payload⟩, .ok tree.bound) := by
  rw [addChild, if_pos h]
  rfl

theorem contains_grow (tree : Tree P) (parent : NodeId) (label : Label P) (id : NodeId) :
    (tree.grow parent label).contains id = true ↔ id = tree.bound ∨ tree.contains id = true := by
  rw [grow, contains_update, contains_push]

theorem contains_grow_bound (tree : Tree P) (parent : NodeId) (label : Label P) :
    (tree.grow parent label).contains tree.bound = true :=
  (contains_grow tree parent label tree.bound).mpr (.inl rfl)

theorem parent?_grow (tree : Tree P) (parent : NodeId) (label : Label P) (id : NodeId) :
    (tree.grow parent label).parent? id =
      if id = tree.bound then some parent else tree.parent? id := by
  rw [grow, parent?_update_addChild, parent?_push]

theorem children_bound (tree : Tree P) : tree.children tree.bound = [] := by
  simp [children, find?_eq_none_of_le]

theorem children_grow {tree : Tree P} {parent : NodeId} (h : tree.contains parent = true)
    (label : Label P) (id : NodeId) :
    (tree.grow parent label).children id =
      if id = parent then tree.children parent ++ [tree.bound] else tree.children id := by
  have hparent : (tree.push ⟨label, some parent, []⟩).contains parent = true :=
    (contains_push _ _ _).mpr (.inr h)
  have hne : parent ≠ tree.bound := Nat.ne_of_lt (lt_bound_of_contains h)
  rw [grow, children_update_addChild hparent, children_push, if_neg hne, children_push]
  by_cases hid : id = tree.bound
  · rw [if_pos hid, hid, children_bound]
  · rw [if_neg hid]

theorem linked_single (label : Label P) : (single label).Linked where
  contains_root := rfl
  parent?_root := rfl
  nodup_children id := by
    cases id with
    | zero => exact List.nodup_nil
    | succ id => exact List.nodup_nil
  mem_children_iff id child := by
    cases id <;> cases child <;> simp [single, children, parent?, find?]
  rooted {id} hid := by
    have hlt := lt_bound_of_contains hid
    cases id with
    | zero => exact .root
    | succ id => simp [single, bound] at hlt

theorem Linked.grow {tree : Tree P} (h : tree.Linked) {parent : NodeId}
    (hparent : tree.contains parent = true) (label : Label P) :
    (tree.grow parent label).Linked := by
  have hroot : root ≠ tree.bound := Nat.ne_of_lt (lt_bound_of_contains h.contains_root)
  have hfresh : ∀ {id}, tree.contains id = true → id ≠ tree.bound := fun hid =>
    Nat.ne_of_lt (lt_bound_of_contains hid)
  have hunlisted : ∀ id, tree.bound ∉ tree.children id := fun id hmem =>
    hfresh (h.contains_child hmem) rfl
  have hold : ∀ {id}, tree.contains id = true → (tree.grow parent label).Rooted id := by
    intro id hid
    refine h.up_induction (motive := (tree.grow parent label).Rooted) .root ?_ hid
    intro id up hlink hup
    refine .child ?_ hup
    rw [parent?_grow, if_neg (hfresh (contains_of_parent? hlink)), hlink]
  refine ⟨?_, ?_, ?_, ?_, ?_⟩
  · exact (contains_grow _ _ _ _).mpr (.inr h.contains_root)
  · rw [parent?_grow, if_neg hroot, h.parent?_root]
  · intro id
    rw [children_grow hparent]
    split
    · exact List.nodup_append.mpr ⟨h.nodup_children _, List.nodup_singleton _, fun a ha b hb heq =>
        hunlisted parent (List.mem_singleton.mp hb ▸ heq ▸ ha)⟩
    · exact h.nodup_children id
  · intro id child
    rw [children_grow hparent, parent?_grow]
    by_cases hchild : child = tree.bound
    · rw [if_pos hchild, hchild, Option.some.injEq]
      by_cases hid : id = parent
      · simp [hid]
      · rw [if_neg hid]
        exact ⟨fun hmem => absurd hmem (hunlisted id), fun heq => absurd heq.symm hid⟩
    · rw [if_neg hchild, ← h.mem_children_iff]
      by_cases hid : id = parent
      · simp [hid, hchild]
      · rw [if_neg hid]
  · intro id hid
    rcases (contains_grow _ _ _ _).mp hid with heq | hid
    · subst heq
      exact .child (by rw [parent?_grow, if_pos rfl]) (hold hparent)
    · exact hold hid

/-! ## A new row -/

/-- A forest added below a parent leaf by leaf, in pre-order. -/
def sprout (parent : NodeId) : Forest (Label P) → Tree P → Tree P
  | .nil, tree => tree
  | .cons label below rest, tree =>
    sprout parent rest (sprout tree.bound below (tree.grow parent label))

theorem contains_sprout {parent id : NodeId} (forest : Forest (Label P)) {tree : Tree P}
    (hid : tree.contains id = true) : (sprout parent forest tree).contains id = true := by
  induction forest generalizing parent tree with
  | nil => exact hid
  | cons label below rest ihbelow ihrest =>
    exact ihrest (ihbelow ((contains_grow _ _ _ _).mpr (.inr hid)))

theorem Linked.sprout {tree : Tree P} (h : tree.Linked) {parent : NodeId}
    (hparent : tree.contains parent = true) (forest : Forest (Label P)) :
    (sprout parent forest tree).Linked := by
  induction forest generalizing parent tree with
  | nil => exact h
  | cons label below rest ihbelow ihrest =>
    have hnew : (tree.grow parent label).contains tree.bound = true := contains_grow_bound _ _ _
    have hkept : (tree.grow parent label).contains parent = true :=
      (contains_grow _ _ _ _).mpr (.inr hparent)
    exact ihrest (ihbelow (h.grow hparent label) hnew) (contains_sprout below hkept)

theorem sprout_append (parent : NodeId) (first second : Forest (Label P)) (tree : Tree P) :
    sprout parent (first.append second) tree = sprout parent second (sprout parent first tree) := by
  induction first generalizing tree with
  | nil => rfl
  | cons label below rest _ ihrest => exact ihrest _

@[simp] theorem bound_plantForest (parent : NodeId) (forest : Forest (Label P)) (tree : Tree P) :
    (plantForest parent forest tree).1.bound = tree.bound + forest.size := by
  induction forest generalizing parent tree with
  | nil => rfl
  | cons label below rest ihbelow ihrest =>
    simp only [plantForest, ihrest, bound_update, ihbelow, bound_push, Forest.size]
    omega

theorem find?_plantForest {parent id : NodeId} (forest : Forest (Label P)) {tree : Tree P}
    (hid : id < tree.bound) : (plantForest parent forest tree).1.find? id = tree.find? id := by
  induction forest generalizing parent tree with
  | nil => rfl
  | cons label below rest ihbelow ihrest =>
    have hne : id ≠ tree.bound := Nat.ne_of_lt hid
    have hlt : id < tree.bound + 1 := Nat.lt_succ_of_lt hid
    simp only [plantForest]
    rw [ihrest, find?_update, if_neg hne, ihbelow, find?_push, if_neg hne]
    · rwa [bound_push]
    · rw [bound_update, bound_plantForest, bound_push]
      exact Nat.lt_add_right _ hlt

theorem contains_plantForest {parent id : NodeId} (forest : Forest (Label P)) {tree : Tree P}
    (hid : tree.contains id = true) : (plantForest parent forest tree).1.contains id = true := by
  rw [contains, find?_plantForest forest (lt_bound_of_contains hid)]
  exact hid

theorem plantForest_update {parent id : NodeId} (forest : Forest (Label P)) {tree : Tree P}
    (hid : tree.contains id = true) (change : Node P → Node P) :
    plantForest parent forest (tree.update id change) =
      ((plantForest parent forest tree).1.update id change,
        (plantForest parent forest tree).2) := by
  induction forest generalizing parent tree with
  | nil => rfl
  | cons label below rest ihbelow ihrest =>
    have hne : id ≠ tree.bound := Nat.ne_of_lt (lt_bound_of_contains hid)
    have hpush : (tree.push ⟨label, some parent, []⟩).contains id = true :=
      (contains_push _ _ _).mpr (.inr hid)
    simp only [plantForest, bound_update]
    rw [push_update hid, ihbelow hpush]
    simp only [update_comm _ hne]
    rw [ihrest]
    rw [contains_update]
    exact contains_plantForest below hpush

/-- Hanging a planted row below its parent leaves the same tree as adding its nodes one by one. -/
theorem update_plantForest {parent : NodeId} (forest : Forest (Label P)) {tree : Tree P}
    (hparent : tree.contains parent = true) :
    (plantForest parent forest tree).1.update parent (fun node =>
        { node with children := node.children ++ (plantForest parent forest tree).2 }) =
      sprout parent forest tree := by
  induction forest generalizing parent tree with
  | nil =>
    obtain ⟨node, hnode⟩ := contains_iff.mp hparent
    refine ext_find? (by simp [plantForest, sprout]) fun id => ?_
    rw [find?_update]
    split
    · next heq =>
      subst heq
      simp [plantForest, sprout, hnode]
    · rfl
  | cons label below rest ihbelow ihrest =>
    have hne : parent ≠ tree.bound := Nat.ne_of_lt (lt_bound_of_contains hparent)
    have hnew : (tree.grow parent label).contains tree.bound = true := contains_grow_bound _ _ _
    have hkept : (sprout tree.bound below (tree.grow parent label)).contains parent = true :=
      contains_sprout below ((contains_grow _ _ _ _).mpr (.inr hparent))
    have hpush : (tree.push ⟨label, some parent, []⟩).contains parent = true :=
      (contains_push _ _ _).mpr (.inr hparent)
    rw [sprout, ← ihrest hkept, ← ihbelow hnew]
    rw [show tree.grow parent label =
      (tree.push ⟨label, some parent, []⟩).update parent (·.addChild tree.bound) from rfl,
      plantForest_update below hpush]
    generalize hplanted : plantForest tree.bound below (tree.push ⟨label, some parent, []⟩) = planted
    have hnode : (planted.1.update parent (·.addChild tree.bound)).find? tree.bound =
        some ⟨label, some parent, []⟩ := by
      rw [find?_update, if_neg hne.symm, ← hplanted, find?_plantForest below, find?_push, if_pos rfl]
      rw [bound_push]
      exact Nat.lt_succ_self _
    have hset : (planted.1.update parent (·.addChild tree.bound)).update tree.bound
          (fun node => { node with children := node.children ++ planted.2 }) =
        (planted.1.update tree.bound (fun node => { node with children := planted.2 })).update
          parent (·.addChild tree.bound) := by
      rw [update_congr _ hnode _ (fun node => { node with children := planted.2 }) rfl,
        update_comm _ hne]
    have hrest : (planted.1.update tree.bound
        (fun node => { node with children := planted.2 })).contains parent = true := by
      rw [contains_update, ← hplanted]
      exact contains_plantForest below hpush
    rw [hset, plantForest_update rest hrest, update_update]
    simp only [plantForest, hplanted]
    congr 1
    funext node
    simp [Node.addChild]

/-! ## Planted outlines -/

theorem graft_eq {tree other : Tree P} {parent : NodeId} {outline : Outline P}
    (hparent : tree.contains parent = true) (houtline : other.outline? root = some outline) :
    tree.graft parent other =
      (sprout parent (.cons outline.root outline.below .nil) tree, .ok tree.bound) := by
  rw [graft, if_pos hparent, ← update_plantForest _ hparent]
  simp only [houtline]
  rfl

theorem ofOutline_eq (outline : Outline P) :
    ofOutline outline = sprout root outline.below (single outline.root) := by
  rw [← update_plantForest _ rfl]
  have hnode : (plantForest root outline.below (single outline.root)).1.find? root =
      some ⟨outline.root, none, []⟩ := find?_plantForest outline.below Nat.one_pos
  rw [update_congr _ hnode _ (fun node =>
    { node with children := (plantForest root outline.below (single outline.root)).2 }) rfl]
  rfl

theorem linked_ofOutline (outline : Outline P) : (ofOutline outline).Linked := by
  rw [ofOutline_eq]
  exact (linked_single outline.root).sprout rfl outline.below

end Conform.Tree
