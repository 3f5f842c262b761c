import Conform.Proofs.Tree.Growth
import Conform.Proofs.Tree.Removal
import Conform.Proofs.Tree.Validation
/-!
# Reachable trees

The trees that the operations lead to, in any order and number, also when a
visitor carries them out during a walk. Every operation keeps the links in
order, whether it succeeds or fails, so every reachable tree is well-formed
and passes the check of its links.
-/

namespace Conform.Tree

universe u

variable {P : Type u}

/-- What operations lead to, failed ones among them, when all payloads they are given are good:
trees made from nothing, and what becomes of one tree. A visitor may keep a state of its own, such
as trees it has detached; `holds` is what it relies on. -/
inductive Run (good : P → Prop) : Option (Tree P) → Tree P → Prop
  | single {label : Label P} (payload : good label.payload) : Run good none (single label)
  | edited {tree changed : Tree P} (before : Run good none tree)
      (edits : Run good (some tree) changed) : Run good none changed
  | detached {tree rest part : Tree P} {id : NodeId} (before : Run good none tree)
      (split : tree.detach id = (rest, .ok part)) : Run good none part
  | refl (tree : Tree P) : Run good (some tree) tree
  | trans {first second third : Tree P} (before : Run good (some first) second)
      (after : Run good (some second) third) : Run good (some first) third
  | rename (tree : Tree P) (id : NodeId) (name : String) :
      Run good (some tree) (tree.rename id name).1
  | updatePayload (tree : Tree P) (id : NodeId) {change : P → P}
      (payload : ∀ held, good held → good (change held)) :
      Run good (some tree) (tree.updatePayload id change)
  | addChild (tree : Tree P) (parent : NodeId) (name : String) {payload : P}
      (fresh : good payload) : Run good (some tree) (tree.addChild parent name payload).1
  | addChildren (tree : Tree P) (parent : NodeId) (ids : List NodeId) :
      Run good (some tree) (tree.addChildren parent ids).1
  | moveNode (tree : Tree P) (id parent : NodeId) :
      Run good (some tree) (tree.moveNode id parent).1
  | graft (tree : Tree P) (parent : NodeId) {other : Tree P} (source : Run good none other) :
      Run good (some tree) (tree.graft parent other).1
  | detach (tree : Tree P) (id : NodeId) : Run good (some tree) (tree.detach id).1
  | removeChild (tree : Tree P) (parent : NodeId) (name : String) :
      Run good (some tree) (tree.removeChild parent name).1
  | replaceChild (tree : Tree P) (parent : NodeId) {other : Tree P}
      (source : Run good none other) : Run good (some tree) (tree.replaceChild parent other).1
  | revise (tree : Tree P) (budget : Nat) (start : NodeId) {State : Type u}
      {visitor : Tree P → NodeId → Nat → State → Signal × Tree P × State} {state : State}
      {holds : Tree P → State → Prop} (begins : holds tree state)
      (edits : ∀ tree id depth state, holds tree state →
        Run good (some tree) (visitor tree id depth state).2.1)
      (keeps : ∀ tree id depth state, holds tree state →
        holds (visitor tree id depth state).2.1 (visitor tree id depth state).2.2) :
      Run good (some tree) (tree.revise budget start visitor state).2.1

/-- The trees that operations lead to from payloads that are good. -/
abbrev Reachable (good : P → Prop) (tree : Tree P) : Prop := Run good none tree

/-- What a run of operations on one tree can make of it. -/
abbrev Edited (good : P → Prop) (tree changed : Tree P) : Prop := Run good (some tree) changed

/-! ## What single operations keep -/

namespace Linked

variable {tree : Tree P}

theorem update (h : tree.Linked) (id : NodeId) {change : Node P → Node P}
    (hparent : ∀ node, (change node).parent? = node.parent?)
    (hchildren : ∀ node, (change node).children = node.children) :
    (tree.update id change).Linked :=
  h.of_same_links (tree.contains_update id · change)
    (fun other => tree.parent?_update id other change hparent)
    (fun other => tree.children_update id other change hchildren)

theorem rename (h : tree.Linked) (id : NodeId) (name : String) :
    (tree.rename id name).1.Linked := by
  rw [Tree.rename]
  split
  · exact h.update id (fun _ => rfl) (fun _ => rfl)
  · exact h

theorem updatePayload (h : tree.Linked) (id : NodeId) (change : P → P) :
    (tree.updatePayload id change).Linked :=
  h.update id (fun _ => rfl) (fun _ => rfl)

theorem addChild (h : tree.Linked) (parent : NodeId) (name : String) (payload : P) :
    (tree.addChild parent name payload).1.Linked := by
  by_cases hparent : tree.contains parent = true
  · rw [addChild_eq hparent]
    exact h.grow hparent _
  · rw [Tree.addChild, if_neg hparent]
    exact h

theorem moveNode (h : tree.Linked) (id parent : NodeId) : (tree.moveNode id parent).1.Linked := by
  by_cases hmovable : tree.Movable id parent
  · rw [moveNode_of_movable hmovable]
    exact h.relink hmovable
  · obtain ⟨failure, hfail⟩ := moveNode_of_not_movable hmovable
    rw [hfail]
    exact h

theorem addChildren (h : tree.Linked) (parent : NodeId) (ids : List NodeId) :
    (tree.addChildren parent ids).1.Linked := by
  induction ids generalizing tree with
  | nil => exact h
  | cons id rest ih =>
    have hmoved := h.moveNode id parent
    rw [Tree.addChildren]
    split
    · next moved heq =>
      rw [heq] at hmoved
      exact ih hmoved
    · next left failure heq =>
      rw [heq] at hmoved
      exact hmoved

theorem graft (h : tree.Linked) (parent : NodeId) (other : Tree P) :
    (tree.graft parent other).1.Linked := by
  by_cases hparent : tree.contains parent = true
  · cases houtline : other.outline? root with
    | none =>
      rw [Tree.graft, if_pos hparent]
      simpa only [houtline] using h
    | some outline =>
      rw [graft_eq hparent houtline]
      exact h.sprout hparent _
  · rw [Tree.graft, if_neg hparent]
    exact h

theorem detach (h : tree.Linked) (id : NodeId) : (tree.detach id).1.Linked := by
  rw [Tree.detach]
  split
  · exact h
  · next hroot =>
    split
    · exact h.prune hroot
    · exact h

theorem foldl_prune (h : tree.Linked) (doomed : List NodeId) (hroot : ∀ id ∈ doomed, id ≠ root) :
    (doomed.foldl Tree.prune tree).Linked := by
  induction doomed generalizing tree with
  | nil => exact h
  | cons id rest ih =>
    apply ih
    · exact h.prune (hroot id List.mem_cons_self)
    · exact fun other hother => hroot other (List.mem_cons_of_mem _ hother)

theorem removeChild (h : tree.Linked) (parent : NodeId) (name : String) :
    (tree.removeChild parent name).1.Linked := by
  apply h.foldl_prune
  intro id hid
  have hlink := (h.mem_children_iff parent id).mp (List.mem_of_mem_filter hid)
  exact h.ne_root_of_parent? hlink

theorem replaceChild (h : tree.Linked) (parent : NodeId) (other : Tree P) :
    (tree.replaceChild parent other).1.Linked := by
  rw [Tree.replaceChild]
  split
  · next name _ => exact (h.removeChild parent name).graft parent other
  · exact h.graft parent other

end Linked

theorem linked_of_detach {tree rest part : Tree P} {id : NodeId}
    (h : tree.detach id = (rest, .ok part)) : part.Linked := by
  rw [detach] at h
  split at h
  · cases h
  · split at h
    · cases h
      exact linked_ofOutline _
    · cases h

/-- What a visitor keeps at every node it is called on, a walk of any length keeps. -/
theorem reviseOver_induction {State : Type u}
    (visitor : Tree P → NodeId → Nat → State → Signal × Tree P × State)
    (holds : Tree P → State → Prop)
    (keeps : ∀ tree id depth state, holds tree state →
      holds (visitor tree id depth state).2.1 (visitor tree id depth state).2.2)
    (budget : Nat) (todo : List (NodeId × Nat)) {tree : Tree P} {state : State}
    (h : holds tree state) :
    holds (reviseOver visitor budget todo tree state).2.1
      (reviseOver visitor budget todo tree state).2.2 := by
  induction budget generalizing todo tree state with
  | zero => cases todo <;> exact h
  | succ budget ih =>
    cases todo with
    | nil => exact h
    | cons next rest =>
      obtain ⟨id, depth⟩ := next
      have hvisit := keeps tree id depth state h
      rw [reviseOver]
      split
      · split
        · next heq => rw [heq] at hvisit; exact ih _ hvisit
        · next heq => rw [heq] at hvisit; exact ih _ hvisit
        · next heq => rw [heq] at hvisit; exact hvisit
      · exact ih _ h

/-! ## What runs keep -/

theorem Run.linked {good : P → Prop} {origin? : Option (Tree P)} {tree : Tree P}
    (h : Run good origin? tree) (horigin : ∀ origin, origin? = some origin → origin.Linked) :
    tree.Linked := by
  induction h with
  | single _ => exact linked_single _
  | edited _ _ ihbefore ihedits =>
    refine ihedits fun origin heq => ?_
    cases heq
    exact ihbefore fun _ h => nomatch h
  | detached _ split _ => exact linked_of_detach split
  | refl tree => exact horigin _ rfl
  | trans _ _ ihbefore ihafter =>
    refine ihafter fun origin heq => ?_
    cases heq
    exact ihbefore horigin
  | rename tree id name => exact (horigin _ rfl).rename id name
  | updatePayload tree id _ => exact (horigin _ rfl).updatePayload id _
  | addChild tree parent name _ => exact (horigin _ rfl).addChild parent name _
  | addChildren tree parent ids => exact (horigin _ rfl).addChildren parent ids
  | moveNode tree id parent => exact (horigin _ rfl).moveNode id parent
  | graft tree parent _ _ => exact (horigin _ rfl).graft parent _
  | detach tree id => exact (horigin _ rfl).detach id
  | removeChild tree parent name => exact (horigin _ rfl).removeChild parent name
  | replaceChild tree parent _ _ => exact (horigin _ rfl).replaceChild parent _
  | @revise tree budget start State visitor state holds begins _ keeps ihedits =>
    have hwalk := reviseOver_induction visitor
      (fun tree state => holds tree state ∧ tree.Linked)
      (fun tree id depth state hvisit => ?_) budget [(start, 0)] ⟨begins, horigin _ rfl⟩
    · exact hwalk.2
    · refine ⟨keeps tree id depth state hvisit.1, ihedits tree id depth state hvisit.1 ?_⟩
      intro _ heq
      cases heq
      exact hvisit.2

theorem Reachable.linked {good : P → Prop} {tree : Tree P} (h : Reachable good tree) :
    tree.Linked :=
  Run.linked h fun _ heq => nomatch heq

/-- Whatever operations were carried out, the tree is well-formed and its links pass the check. -/
theorem wellFormed_and_validate_of_reachable {good : P → Prop} {tree : Tree P}
    (h : Reachable good tree) : tree.WellFormed ∧ tree.validate = .ok () :=
  ⟨h.linked.wellFormed, h.linked.validate_eq_ok⟩

theorem wellFormed_and_validate_of_reachable_moved :
    Reachable (fun _ : Nat => True)
        (((((single ⟨some "r", 0⟩).addChild root "a" 1).1.addChild 1 "b" 2).1.moveNode 2 root).1.detach
          1).1 ∧
      (((((single ⟨some "r", 0⟩).addChild root "a" 1).1.addChild 1 "b" 2).1.moveNode 2 root).1.detach
        1).1.WellFormed ∧
      (((((single ⟨some "r", 0⟩).addChild root "a" 1).1.addChild 1 "b" 2).1.moveNode 2 root).1.detach
        1).1.validate = .ok () := by
  have h : Reachable (fun _ : Nat => True)
      (((((single ⟨some "r", 0⟩).addChild root "a" 1).1.addChild 1 "b" 2).1.moveNode 2 root).1.detach
        1).1 :=
    .edited (.edited (.edited (.edited (.single trivial) (.addChild _ _ _ trivial))
      (.addChild _ _ _ trivial)) (.moveNode _ _ _)) (.detach _ _)
  exact ⟨h, wellFormed_and_validate_of_reachable h⟩

/-! ## Trees of outlines -/

theorem graft_single {tree : Tree P} {parent : NodeId} (hparent : tree.contains parent = true)
    (label : Label P) : (tree.graft parent (single label)).1 = tree.grow parent label := by
  have houtline : (single label).outline? root = some ⟨label, .nil⟩ := rfl
  rw [graft_eq hparent houtline]
  rfl

theorem Edited.sprout {good : P → Prop} {tree : Tree P} {parent : NodeId}
    (hparent : tree.contains parent = true) (forest : Forest (Label P))
    (hgood : ∀ label ∈ forest.preorder, good label.payload) :
    Edited good tree (sprout parent forest tree) := by
  induction forest generalizing tree parent with
  | nil => exact .refl tree
  | cons label below rest ihbelow ihrest =>
    have hnew : (tree.grow parent label).contains tree.bound = true := contains_grow_bound _ _ _
    have hkept : (tree.grow parent label).contains parent = true :=
      (contains_grow _ _ _ _).mpr (.inr hparent)
    have hleaf : Edited good tree (tree.grow parent label) := by
      rw [← graft_single hparent]
      exact .graft tree parent (.single (hgood label List.mem_cons_self))
    refine .trans hleaf (.trans (ihbelow hnew fun other hother => hgood other ?_)
      (ihrest (contains_sprout below hkept) fun other hother => hgood other ?_))
    · exact List.mem_cons_of_mem _ (List.mem_append_left _ hother)
    · exact List.mem_cons_of_mem _ (List.mem_append_right _ hother)

/-- Operations lead to the tree of every outline. -/
theorem reachable_ofOutline {good : P → Prop} (outline : Outline P)
    (hroot : good outline.root.payload)
    (hbelow : ∀ label ∈ outline.below.preorder, good label.payload) :
    Reachable good (ofOutline outline) := by
  rw [ofOutline_eq]
  exact .edited (.single hroot) (Edited.sprout rfl outline.below hbelow)

end Conform.Tree
