import Conform.Proofs.Tree.Reachable
/-!
# Payloads of reachable trees

Operations make no payload of their own: what a reachable tree carries was
given to an operation, or was made by a visitor or caller of what a tree
carried.
-/

namespace Conform.Tree

universe u

variable {P : Type u} {good : P → Prop} {tree : Tree P}

/-- All payloads of the tree are good. -/
def Carries (good : P → Prop) (tree : Tree P) : Prop :=
  ∀ id node, tree.find? id = some node → good node.payload

namespace Carries

theorem single {label : Label P} (h : good label.payload) : Carries good (single label) := by
  intro id node hnode
  have hlt := lt_bound_of_find? hnode
  obtain rfl : id = 0 := by simpa [Tree.single, bound] using hlt
  cases hnode
  exact h

theorem update (h : Carries good tree) (id : NodeId) {change : Node P → Node P}
    (hchange : ∀ node, good node.payload → good (change node).payload) :
    Carries good (tree.update id change) := by
  intro other node hnode
  rw [find?_update] at hnode
  split at hnode
  · obtain ⟨held, hheld, rfl⟩ := Option.map_eq_some_iff.mp hnode
    exact hchange held (h id held hheld)
  · exact h other node hnode

theorem push (h : Carries good tree) {node : Node P} (hnode : good node.payload) :
    Carries good (tree.push node) := by
  intro other held hheld
  rw [find?_push] at hheld
  split at hheld
  · cases hheld
    exact hnode
  · exact h other held hheld

theorem grow (h : Carries good tree) (parent : NodeId) {label : Label P}
    (hlabel : good label.payload) : Carries good (tree.grow parent label) :=
  (h.push hlabel).update parent fun _ hnode => hnode

theorem sprout (h : Carries good tree) (parent : NodeId) {forest : Forest (Label P)}
    (hforest : ∀ label ∈ forest.preorder, good label.payload) :
    Carries good (sprout parent forest tree) := by
  induction forest generalizing tree parent with
  | nil => exact h
  | cons label below rest ihbelow ihrest =>
    have hlabel := hforest label List.mem_cons_self
    refine ihrest (ihbelow (h.grow parent hlabel) _ fun other hother => hforest other ?_) _
      fun other hother => hforest other ?_
    · exact List.mem_cons_of_mem _ (List.mem_append_left _ hother)
    · exact List.mem_cons_of_mem _ (List.mem_append_right _ hother)

theorem find?_of_mem_forestAt {steps : Nat} {ids : List NodeId} {id : NodeId} {node : Node P}
    (hmem : (id, node) ∈ (tree.forestAt steps ids).preorder) : tree.find? id = some node := by
  induction steps generalizing ids with
  | zero => cases ids <;> simp [forestAt, Forest.preorder] at hmem
  | succ steps ih =>
    cases ids with
    | nil => simp [forestAt, Forest.preorder] at hmem
    | cons first rest =>
      rw [forestAt] at hmem
      split at hmem
      · next held hheld =>
        rw [Forest.preorder, List.mem_cons, List.mem_append] at hmem
        rcases hmem with heq | hmem | hmem
        · cases heq
          exact hheld
        · exact ih hmem
        · exact ih hmem
      · exact ih hmem

theorem outline (h : Carries good tree) {id : NodeId} {outline : Outline P}
    (houtline : tree.outline? id = some outline) :
    ∀ label ∈ (Forest.cons outline.root outline.below .nil).preorder, good label.payload := by
  obtain ⟨node, hnode, rfl⟩ := Option.map_eq_some_iff.mp houtline
  intro label hlabel
  rw [Forest.preorder, Forest.preorder, List.append_nil, List.mem_cons, labelsBelow,
    Forest.preorder_map, List.mem_map] at hlabel
  rcases hlabel with rfl | ⟨⟨other, held⟩, hheld, rfl⟩
  · exact h id node hnode
  · exact h other held (find?_of_mem_forestAt hheld)

theorem graft (h : Carries good tree) (parent : NodeId) {other : Tree P}
    (hother : Carries good other) : Carries good (tree.graft parent other).1 := by
  by_cases hparent : tree.contains parent = true
  · cases houtline : other.outline? root with
    | none =>
      rw [Tree.graft, if_pos hparent]
      simpa only [houtline] using h
    | some outline =>
      rw [graft_eq hparent houtline]
      exact h.sprout parent (hother.outline houtline)
  · rw [Tree.graft, if_neg hparent]
    exact h

theorem unlink (h : Carries good tree) (id : NodeId) : Carries good (tree.unlink id) := by
  rw [Tree.unlink]
  split
  · next parent _ =>
    have hcut : Carries good (tree.update parent (·.dropChild id)) :=
      h.update parent fun _ hnode => hnode
    exact hcut.update id fun _ hnode => hnode
  · exact h

theorem prune (h : Carries good tree) (id : NodeId) : Carries good (tree.prune id) := by
  intro other node hnode
  rw [Tree.prune, find?_foldl_erase] at hnode
  split at hnode
  · cases hnode
  · exact h.unlink id other node hnode

theorem moveNode (h : Carries good tree) (id parent : NodeId) :
    Carries good (tree.moveNode id parent).1 := by
  by_cases hmovable : tree.Movable id parent
  · rw [moveNode_of_movable hmovable]
    have hlisted : Carries good ((tree.unlink id).update parent (·.addChild id)) :=
      (h.unlink id).update parent fun _ hnode => hnode
    exact hlisted.update id fun _ hnode => hnode
  · obtain ⟨failure, hfail⟩ := moveNode_of_not_movable hmovable
    rw [hfail]
    exact h

theorem addChildren (h : Carries good tree) (parent : NodeId) (ids : List NodeId) :
    Carries good (tree.addChildren parent ids).1 := by
  induction ids generalizing tree with
  | nil => exact h
  | cons id rest ih =>
    have hmoved := h.moveNode id parent
    rw [Tree.addChildren]
    split
    · next moved heq =>
      rw [heq] at hmoved
      exact ih hmoved
    · next left failure heq =>
      rw [heq] at hmoved
      exact hmoved

theorem removeChild (h : Carries good tree) (parent : NodeId) (name : String) :
    Carries good (tree.removeChild parent name).1 := by
  rw [Tree.removeChild]
  generalize (tree.children parent).filter _ = doomed
  induction doomed generalizing tree with
  | nil => exact h
  | cons id rest ih => exact ih (h.prune id)

theorem detach (h : Carries good tree) (id : NodeId) : Carries good (tree.detach id).1 := by
  rw [Tree.detach]
  split
  · exact h
  · split
    · exact h.prune id
    · exact h

theorem of_detach (h : Carries good tree) {rest part : Tree P} {id : NodeId}
    (hsplit : tree.detach id = (rest, .ok part)) : Carries good part := by
  rw [Tree.detach] at hsplit
  split at hsplit
  · cases hsplit
  · split at hsplit
    · next outline houtline =>
      cases hsplit
      have hlabels := h.outline houtline
      rw [ofOutline_eq]
      refine (single (hlabels _ List.mem_cons_self)).sprout root fun label hlabel => ?_
      exact hlabels label (List.mem_cons_of_mem _ (List.mem_append_left _ hlabel))
    · cases hsplit

end Carries

theorem Run.carries {origin? : Option (Tree P)} (h : Run good origin? tree)
    (horigin : ∀ origin, origin? = some origin → Carries good origin) : Carries good tree := by
  induction h with
  | single payload => exact .single payload
  | edited _ _ ihbefore ihedits =>
    refine ihedits fun origin heq => ?_
    cases heq
    exact ihbefore fun _ h => nomatch h
  | detached _ split ih => exact (ih fun _ h => nomatch h).of_detach split
  | refl tree => exact horigin _ rfl
  | trans _ _ ihbefore ihafter =>
    refine ihafter fun origin heq => ?_
    cases heq
    exact ihbefore horigin
  | rename tree id name =>
    rw [Tree.rename]
    split
    · exact (horigin _ rfl).update id fun _ hnode => hnode
    · exact horigin _ rfl
  | updatePayload tree id payload => exact (horigin _ rfl).update id fun _ hnode => payload _ hnode
  | addChild tree parent name fresh =>
    by_cases hparent : tree.contains parent = true
    · rw [addChild_eq hparent]
      exact (horigin _ rfl).grow parent fresh
    · rw [Tree.addChild, if_neg hparent]
      exact horigin _ rfl
  | addChildren tree parent ids => exact (horigin _ rfl).addChildren parent ids
  | moveNode tree id parent => exact (horigin _ rfl).moveNode id parent
  | graft tree parent _ ih => exact (horigin _ rfl).graft parent (ih fun _ h => nomatch h)
  | detach tree id => exact (horigin _ rfl).detach id
  | removeChild tree parent name => exact (horigin _ rfl).removeChild parent name
  | replaceChild tree parent _ ih =>
    have hother := ih fun _ h => nomatch h
    rw [Tree.replaceChild]
    split
    · exact ((horigin _ rfl).removeChild parent _).graft parent hother
    · exact (horigin _ rfl).graft parent hother
  | @revise tree budget start State visitor state holds begins _ keeps ihedits =>
    have hwalk := reviseOver_induction visitor
      (fun tree state => holds tree state ∧ Carries good tree)
      (fun tree id depth state hvisit => ?_) budget [(start, 0)] ⟨begins, horigin _ rfl⟩
    · exact hwalk.2
    · refine ⟨keeps tree id depth state hvisit.1, ihedits tree id depth state hvisit.1 ?_⟩
      intro _ heq
      cases heq
      exact hvisit.2

/-- A reachable tree carries good payloads only. -/
theorem Reachable.carries (h : Reachable good tree) : Carries good tree :=
  Run.carries h fun _ heq => nomatch heq

end Conform.Tree
