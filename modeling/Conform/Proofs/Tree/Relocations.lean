import Conform.Proofs.Coercion.Copies
import Conform.Proofs.Tree.Ascents
import Conform.Proofs.Tree.Histories
import Conform.Proofs.Tree.Reparenting
import Conform.Proofs.Tree.Replacement
import Conform.Proofs.Tree.Revisions
/-!
# Paths after edits

A tree holds no paths: they are read off names and links to parents. Every
operation leaves both alone at the nodes that stay, but for those that it
renames or moves. So the path of a node changes only with a node at or above
it, in the one segment of a renamed node or in front of a moved one.
-/

namespace Conform.Tree

universe u

open Relation (ReflTransGen)

section Upward

variable {P : Type u} {tree later latest : Tree P} {except : NodeId → Prop}

/-! ## A new name -/

@[simp] theorem contains_rename (tree : Tree P) (id : NodeId) (name : String) (other : NodeId) :
    (tree.rename id name).1.contains other = tree.contains other := by
  rw [rename]
  split
  · exact tree.contains_update id other _
  · rfl

@[simp] theorem parent?_rename (tree : Tree P) (id : NodeId) (name : String) (other : NodeId) :
    (tree.rename id name).1.parent? other = tree.parent? other := by
  rw [rename]
  split
  · exact tree.parent?_update id other _ fun _ => rfl
  · rfl

theorem name?_rename {id : NodeId} (hid : tree.contains id = true) (name : String)
    (other : NodeId) :
    (tree.rename id name).1.name? other = if other = id then some name else tree.name? other := by
  obtain ⟨node, hnode⟩ := contains_iff.mp hid
  rw [name?, rename, if_pos hid, find?_update, hnode]
  split
  · rfl
  · rw [name?]

/-! ## Nodes that keep name and parent -/

/-- Nodes that are in both trees have the same name and the same parent in both, but for some. -/
def SameUpward (tree later : Tree P) (except : NodeId → Prop) : Prop :=
  ∀ id, tree.contains id = true → later.contains id = true → ¬except id →
    later.name? id = tree.name? id ∧ later.parent? id = tree.parent? id

/-- Of nodes that are moved below a parent one after another, those before the first that may not
be. -/
def movedFront (tree : Tree P) (parent : NodeId) : List NodeId → List NodeId
  | [] => []
  | id :: rest =>
    match tree.moveNode id parent with
    | (moved, .ok ()) => id :: moved.movedFront parent rest
    | (_, .error _) => []

theorem name?_congr {id : NodeId} (h : later.label? id = tree.label? id) :
    later.name? id = tree.name? id := by
  rw [name?_eq_bind, name?_eq_bind, h]

namespace SameUpward

theorem refl (tree : Tree P) (except : NodeId → Prop) : SameUpward tree tree except :=
  fun _ _ _ _ => ⟨rfl, rfl⟩

theorem trans (h : SameUpward tree later except) (h' : SameUpward later latest except)
    (hlater : later.Succeeds tree) (hlatest : latest.Succeeds later) :
    SameUpward tree latest except := by
  intro id hid hid' hnot
  have hbetween : later.contains id = true := by
    apply hlatest.contains_of_lt _ hid'
    exact Nat.lt_of_lt_of_le (lt_bound_of_contains hid) hlater.bound_le
  obtain ⟨hname, hparent⟩ := h id hid hbetween hnot
  obtain ⟨hname', hparent'⟩ := h' id hbetween hid' hnot
  exact ⟨hname'.trans hname, hparent'.trans hparent⟩

theorem mono {except' : NodeId → Prop} (h : SameUpward tree later except)
    (hmore : ∀ id, except id → except' id) : SameUpward tree later except' :=
  fun id hid hid' hnot => h id hid hid' fun hexcept => hnot (hmore id hexcept)

theorem path_child (hsame : SameUpward tree later except) (hlater : later.Linked)
    {id parent : NodeId} (hlink : tree.parent? id = some parent)
    (hid' : later.contains id = true) (hnot : ¬except id) :
    later.parent? id = some parent ∧
      later.path id = (later.path parent).append (tree.title id) := by
  obtain ⟨hname, hparent⟩ := hsame id (contains_of_parent? hlink) hid' hnot
  have hlink' := hparent.trans hlink
  refine ⟨hlink', ?_⟩
  rw [hlater.path_child hlink', title, title, hname]

/-- A node keeps its path when none of the exceptions is the node or above it. -/
theorem path_eq (hsame : SameUpward tree later except) (h : tree.Linked) (hlater : later.Linked)
    {id : NodeId} (hid : tree.contains id = true) (hid' : later.contains id = true)
    (hfree : ∀ other, except other → ¬tree.Above other id) : later.path id = tree.path id := by
  revert hid' hfree
  refine h.up_induction (motive := fun id => later.contains id = true →
    (∀ other, except other → ¬tree.Above other id) → later.path id = tree.path id) ?_ ?_ hid
  · intro hroot hfree
    have hname := (hsame root h.contains_root hroot fun hexcept => hfree root hexcept .self).1
    rw [hlater.path_root, h.path_root, title, title, hname]
  · intro id parent hlink ih hid' hfree
    obtain ⟨hlink', hpath⟩ :=
      hsame.path_child hlater hlink hid' fun hexcept => hfree id hexcept .self
    have hup := ih (hlater.contains_parent hlink') fun other hexcept habove =>
      hfree other hexcept (.child hlink habove)
    rw [hpath, hup, h.path_child hlink]

/-! ## Single operations -/

theorem of_sameFrame (h : later.SameFrame tree) : SameUpward tree later except :=
  fun id _ _ _ => ⟨h.name? id, h.parent? id⟩

theorem rename {id : NodeId} (hid : tree.contains id = true) (name : String) :
    SameUpward tree (tree.rename id name).1 (· = id) := by
  intro other _ _ hne
  rw [name?_rename hid, if_neg hne, parent?_rename]
  exact ⟨rfl, rfl⟩

theorem relink {id : NodeId} (hid : tree.contains id = true) (parent : NodeId) :
    SameUpward tree (tree.relink id parent) (· = id) := by
  intro other _ _ hne
  exact ⟨name?_congr (label?_relink tree id parent other),
    by rw [parent?_relink hid, if_neg hne]⟩

theorem moveNode (tree : Tree P) (id parent : NodeId) :
    SameUpward tree (tree.moveNode id parent).1 (· ∈ tree.movedFront parent [id]) := by
  by_cases hmovable : tree.Movable id parent
  · rw [moveNode_of_movable hmovable]
    apply (relink hmovable.contains_id parent).mono
    rintro other rfl
    simp [movedFront, moveNode_of_movable hmovable]
  · obtain ⟨failure, hfail⟩ := moveNode_of_not_movable hmovable
    rw [hfail]
    exact .refl tree _

theorem addChildren (tree : Tree P) (parent : NodeId) (ids : List NodeId) :
    SameUpward tree (tree.addChildren parent ids).1 (· ∈ tree.movedFront parent ids) := by
  induction ids generalizing tree with
  | nil => exact .refl tree _
  | cons id rest ih =>
    by_cases hmovable : tree.Movable id parent
    · have hmove := moveNode_of_movable hmovable
      have hfront : tree.movedFront parent (id :: rest) =
          id :: (tree.relink id parent).movedFront parent rest := by
        simp only [movedFront, hmove]
      have hsucceeds := Succeeds.moveNode tree id parent
      rw [hmove] at hsucceeds
      rw [addChildren_cons_of_ok hmove, hfront]
      have hfirst : SameUpward tree (tree.relink id parent)
          (· ∈ id :: (tree.relink id parent).movedFront parent rest) := by
        apply (relink hmovable.contains_id parent).mono
        rintro other rfl
        exact List.mem_cons_self
      have hothers := (ih (tree.relink id parent)).mono fun _ => List.mem_cons_of_mem id
      exact hfirst.trans hothers hsucceeds (.addChildren _ parent rest)
    · obtain ⟨failure, hfail⟩ := moveNode_of_not_movable hmovable
      rw [addChildren_cons_of_error hfail]
      exact .refl tree _

theorem graft (tree : Tree P) (parent : NodeId) (other : Tree P) :
    SameUpward tree (tree.graft parent other).1 except := by
  intro id hid _ _
  have hold := lt_bound_of_contains hid
  by_cases hparent : tree.contains parent = true
  · cases houtline : other.outline? root with
    | none => simp [Tree.graft, hparent, houtline]
    | some outline =>
      exact ⟨name?_congr (label?_graft hparent houtline hold), parent?_graft hparent houtline hold⟩
  · simp [Tree.graft, hparent]

theorem addChild (tree : Tree P) (parent : NodeId) (name : String) (payload : P) :
    SameUpward tree (tree.addChild parent name payload).1 except := by
  by_cases hparent : tree.contains parent = true
  · rw [addChild_eq hparent, ← graft_single hparent]
    exact graft tree parent _
  · rw [Tree.addChild, if_neg hparent]
    exact .refl tree except

theorem prune (h : tree.Linked) (id : NodeId) : SameUpward tree (tree.prune id) except := by
  by_cases hid : tree.contains id = true
  swap
  · rw [prune_of_not_contains hid]
    exact .refl tree except
  intro other _ hstays _
  have houtside := ((h.contains_prune_iff hid other).mp hstays).2
  exact ⟨name?_congr (h.label?_prune hid houtside), h.parent?_prune hid houtside⟩

theorem detach (h : tree.Linked) (id : NodeId) : SameUpward tree (tree.detach id).1 except := by
  rw [Tree.detach]
  split
  · exact .refl tree except
  · split
    · exact prune h id
    · exact .refl tree except

theorem removeChild (h : tree.Linked) (parent : NodeId) (name : String) :
    SameUpward tree (tree.removeChild parent name).1 except := by
  intro id _ hstays _
  have hcleared := h.cleared_removeChild parent name
  exact ⟨name?_congr (hcleared.label? hstays), hcleared.parent? hstays⟩

theorem replaceChild (h : tree.Linked) (parent : NodeId) (other : Tree P) :
    SameUpward tree (tree.replaceChild parent other).1 except := by
  rw [Tree.replaceChild]
  split
  · next name _ =>
    exact (removeChild h parent name).trans (graft _ parent other)
      (.removeChild tree parent name) (.graft _ parent other)
  · exact graft tree parent other

end SameUpward

/-! ## Paths when one node has changed -/

section Below

variable {top id : NodeId}

namespace SameUpward

variable (hsame : SameUpward tree later (· = top)) (h : tree.Linked) (hlater : later.Linked)
  (hheld : ∀ id, tree.contains id = true → later.contains id = true)
  (hid : tree.contains id = true)

include hsame h hlater hheld hid

theorem path_outside (hnot : ¬tree.Above top id) : later.path id = tree.path id := by
  apply hsame.path_eq h hlater hid (hheld id hid)
  rintro other rfl
  exact hnot

theorem pathFrom?_eq (habove : tree.Above top id) :
    later.Above top id ∧ later.pathFrom? top id = tree.pathFrom? top id := by
  induction habove with
  | self => exact ⟨.self, by rw [h.pathFrom?_self hid, hlater.pathFrom?_self (hheld _ hid)]⟩
  | @child id parent link up ih =>
    have hne := h.ne_of_above_parent link up
    obtain ⟨hname, hparent⟩ := hsame id hid (hheld id hid) hne
    obtain ⟨habove, hfrom⟩ := ih (h.contains_parent link)
    have link' := hparent.trans link
    refine ⟨.child link' habove, ?_⟩
    rw [hlater.pathFrom?_of_ne link' hne, h.pathFrom?_of_ne link hne, hfrom, title, title, hname]

theorem path_below (habove : tree.Above top id) :
    ∃ rest, tree.pathFrom? top id = some rest ∧ later.pathFrom? top id = some rest ∧
      tree.path id = (tree.path top).appendAll rest.segments ∧
      later.path id = (later.path top).appendAll rest.segments := by
  obtain ⟨habove', hfrom⟩ := hsame.pathFrom?_eq h hlater hheld hid habove
  obtain ⟨rest, hrest, hpath⟩ := h.exists_pathFrom? hid habove
  rw [hrest] at hfrom
  exact ⟨rest, hrest, hfrom, hpath,
    ((hlater.pathFrom?_eq_some_iff (hheld id hid)).mp hfrom).2⟩

end SameUpward

namespace Linked

theorem path_rename_outside (h : tree.Linked) (htop : tree.contains top = true) (name : String)
    (hid : tree.contains id = true) (hnot : ¬tree.Above top id) :
    (tree.rename top name).1.path id = tree.path id :=
  (SameUpward.rename htop name).path_outside h (h.rename top name)
    (fun other held => (contains_rename tree top name other).trans held) hid hnot

theorem path_rename_self (h : tree.Linked) (htop : tree.contains top = true) (name : String) :
    ∃ front, tree.path top = ⟨front ++ [tree.title top]⟩ ∧
      (tree.rename top name).1.path top = ⟨front ++ [name]⟩ := by
  have hlater := h.rename top name
  have htitle : (tree.rename top name).1.title top = name := by
    rw [title, name?_rename htop, if_pos rfl, Option.getD_some]
  cases h.rooted htop with
  | root => exact ⟨[], h.path_root, by rw [hlater.path_root, htitle, List.nil_append]⟩
  | @child _ parent link _ =>
    have hparent := h.contains_parent link
    have hlink := (parent?_rename tree top name top).trans link
    have hkept : (tree.rename top name).1.path parent = tree.path parent :=
      h.path_rename_outside htop name hparent fun habove => h.ne_of_above_parent link habove rfl
    refine ⟨(tree.path parent).segments, h.path_child link, ?_⟩
    rw [hlater.path_child hlink, hkept, htitle, Path.append]

/-- At and below a node that is renamed paths change in the segment at its depth. -/
theorem path_rename (h : tree.Linked) (htop : tree.contains top = true) (name : String)
    {depth : Nat} (hdepth : (tree.path top).length = depth + 1) (hid : tree.contains id = true)
    (habove : tree.Above top id) : depth < (tree.path id).length ∧
      ((tree.rename top name).1.path id).segments = (tree.path id).segments.set depth name := by
  obtain ⟨front, hpath, hpath'⟩ := h.path_rename_self htop name
  obtain ⟨rest, _, _, hbelow, hbelow'⟩ := (SameUpward.rename htop name).path_below h
    (h.rename top name) (fun other held => (contains_rename tree top name other).trans held) hid
    habove
  have hfront : front.length = depth := by simpa [hpath, Path.length] using hdepth
  rw [hbelow, hbelow', hpath, hpath', ← hfront]
  constructor
  · simp [Path.appendAll, Path.length]
  · simp [Path.appendAll]

theorem path_relink_outside (h : tree.Linked) {parent : NodeId}
    (hmovable : tree.Movable top parent) (hid : tree.contains id = true)
    (hnot : ¬tree.Above top id) : (tree.relink top parent).path id = tree.path id :=
  (SameUpward.relink hmovable.contains_id parent).path_outside h (h.relink hmovable)
    (fun other held => (contains_relink tree top parent other).trans held) hid hnot

theorem path_relink_self (h : tree.Linked) {parent : NodeId} (hmovable : tree.Movable top parent) :
    (tree.relink top parent).path top = (tree.path parent).append (tree.title top) := by
  have hkept : (tree.relink top parent).path parent = tree.path parent := by
    apply h.path_relink_outside hmovable hmovable.contains_parent
    rw [← h.isAbove_iff hmovable.contains_parent]
    exact hmovable.not_isAbove
  have hlink : (tree.relink top parent).parent? top = some parent := by
    rw [parent?_relink hmovable.contains_id, if_pos rfl]
  have htitle : (tree.relink top parent).title top = tree.title top := by
    rw [title, title, name?_congr (label?_relink tree top parent top)]
  rw [(h.relink hmovable).path_child hlink, hkept, htitle]

/-- At and below a node that is moved paths begin with that of its new parent and its own name. -/
theorem path_relink (h : tree.Linked) {parent : NodeId} (hmovable : tree.Movable top parent)
    (hid : tree.contains id = true) (habove : tree.Above top id) :
    ∃ rest, tree.pathFrom? top id = some rest ∧
      (tree.relink top parent).pathFrom? top id = some rest ∧
      (tree.relink top parent).path id =
        ((tree.path parent).append (tree.title top)).appendAll rest.segments := by
  obtain ⟨rest, hrest, hrest', _, hpath⟩ :=
    (SameUpward.relink hmovable.contains_id parent).path_below h (h.relink hmovable)
      (fun other held => (contains_relink tree top parent other).trans held) hid habove
  refine ⟨rest, hrest, hrest', ?_⟩
  rw [hpath, h.path_relink_self hmovable]

end Linked

end Below

end Upward

/-! ## Operations and walks -/

/-- An operation with what it is given, the tree apart. -/
inductive Edit : Type → Type 1
  | rename {P : Type} (id : NodeId) (name : String) : Edit P
  | updatePayload {P : Type} (id : NodeId) (change : P → P) : Edit P
  | addChild {P : Type} (parent : NodeId) (name : String) (payload : P) : Edit P
  | addChildren {P : Type} (parent : NodeId) (ids : List NodeId) : Edit P
  | moveNode {P : Type} (id parent : NodeId) : Edit P
  | graft {P : Type} (parent : NodeId) (other : Tree P) : Edit P
  | detach {P : Type} (id : NodeId) : Edit P
  | removeChild {P : Type} (parent : NodeId) (name : String) : Edit P
  | replaceChild {P : Type} (parent : NodeId) (other : Tree P) : Edit P
  | conform (atlas : Atlas) (schema : Schema) (settings : Settings) : Edit Attribute
  | conformInPlace (atlas : Atlas) (schema : Schema) (settings : Settings) : Edit Attribute

namespace Edit

/-- What the operation leaves behind, whether it succeeds or fails. -/
def apply : {P : Type} → Edit P → Tree P → Tree P
  | _, .rename id name, tree => (tree.rename id name).1
  | _, .updatePayload id change, tree => tree.updatePayload id change
  | _, .addChild parent name payload, tree => (tree.addChild parent name payload).1
  | _, .addChildren parent ids, tree => (tree.addChildren parent ids).1
  | _, .moveNode id parent, tree => (tree.moveNode id parent).1
  | _, .graft parent other, tree => (tree.graft parent other).1
  | _, .detach id, tree => (tree.detach id).1
  | _, .removeChild parent name, tree => (tree.removeChild parent name).1
  | _, .replaceChild parent other, tree => (tree.replaceChild parent other).1
  | _, .conform atlas schema settings, tree => (schema.conform atlas settings tree).1
  | _, .conformInPlace atlas schema settings, tree => (schema.conformInPlace atlas settings tree).1

/-- The nodes that the operation gives a name or another parent. -/
def displaced : {P : Type} → Edit P → Tree P → List NodeId
  | _, .rename id _, tree => if tree.contains id then [id] else []
  | _, .addChildren parent ids, tree => tree.movedFront parent ids
  | _, .moveNode id parent, tree => tree.movedFront parent [id]
  | _, _, _ => []

variable {P : Type} {tree later : Tree P}

theorem operation (edit : Edit P) (tree : Tree P) : Operation tree (edit.apply tree) := by
  cases edit with
  | rename id name => exact .rename tree id name
  | updatePayload id change => exact .updatePayload tree id change
  | addChild parent name payload => exact .addChild tree parent name payload
  | addChildren parent ids => exact .addChildren tree parent ids
  | moveNode id parent => exact .moveNode tree id parent
  | graft parent other => exact .graft tree parent other
  | detach id => exact .detach tree id
  | removeChild parent name => exact .removeChild tree parent name
  | replaceChild parent other => exact .replaceChild tree parent other
  | conform atlas schema settings => exact .conform atlas schema settings tree
  | conformInPlace atlas schema settings => exact .conformInPlace atlas schema settings tree

theorem operation_iff : Operation tree later ↔ ∃ edit : Edit P, edit.apply tree = later := by
  constructor
  swap
  · rintro ⟨edit, rfl⟩
    exact edit.operation tree
  intro operation
  cases operation with
  | rename _ id name => exact ⟨.rename id name, rfl⟩
  | updatePayload _ id change => exact ⟨.updatePayload id change, rfl⟩
  | addChild _ parent name payload => exact ⟨.addChild parent name payload, rfl⟩
  | addChildren _ parent ids => exact ⟨.addChildren parent ids, rfl⟩
  | moveNode _ id parent => exact ⟨.moveNode id parent, rfl⟩
  | graft _ parent other => exact ⟨.graft parent other, rfl⟩
  | detach _ id => exact ⟨.detach id, rfl⟩
  | removeChild _ parent name => exact ⟨.removeChild parent name, rfl⟩
  | replaceChild _ parent other => exact ⟨.replaceChild parent other, rfl⟩
  | conform atlas schema settings => exact ⟨.conform atlas schema settings, rfl⟩
  | conformInPlace atlas schema settings => exact ⟨.conformInPlace atlas schema settings, rfl⟩

theorem linked (h : tree.Linked) (edit : Edit P) : (edit.apply tree).Linked := by
  cases edit with
  | rename id name => exact h.rename id name
  | updatePayload id change => exact h.updatePayload id change
  | addChild parent name payload => exact h.addChild parent name payload
  | addChildren parent ids => exact h.addChildren parent ids
  | moveNode id parent => exact h.moveNode id parent
  | graft parent other => exact h.graft parent other
  | detach id => exact h.detach id
  | removeChild parent name => exact h.removeChild parent name
  | replaceChild parent other => exact h.replaceChild parent other
  | conform atlas schema settings =>
    exact (Schema.conform_sameFrame h atlas schema settings).linked h
  | conformInPlace atlas schema settings =>
    exact (Schema.conformInPlace_sameFrame h atlas schema settings).linked h

/-- Only the nodes that an operation displaces change their names or parents. -/
theorem sameUpward (h : tree.Linked) (edit : Edit P) :
    SameUpward tree (edit.apply tree) (· ∈ edit.displaced tree) := by
  cases edit with
  | rename id name =>
    by_cases hid : tree.contains id = true
    · apply (SameUpward.rename hid name).mono
      rintro other rfl
      simp [displaced, hid]
    · rw [apply, Tree.rename, if_neg hid]
      exact .refl tree _
  | updatePayload id change => exact .of_sameFrame (.updatePayload tree id change)
  | addChild parent name payload => exact .addChild tree parent name payload
  | addChildren parent ids => exact .addChildren tree parent ids
  | moveNode id parent => exact .moveNode tree id parent
  | graft parent other => exact .graft tree parent other
  | detach id => exact .detach h id
  | removeChild parent name => exact .removeChild h parent name
  | replaceChild parent other => exact .replaceChild h parent other
  | conform atlas schema settings =>
    exact .of_sameFrame (Schema.conform_sameFrame h atlas schema settings)
  | conformInPlace atlas schema settings =>
    exact .of_sameFrame (Schema.conformInPlace_sameFrame h atlas schema settings)

theorem path_eq (h : tree.Linked) (edit : Edit P) {id : NodeId} (hid : tree.contains id = true)
    (hid' : (edit.apply tree).contains id = true)
    (hspared : ∀ other ∈ edit.displaced tree, ¬tree.Above other id) :
    (edit.apply tree).path id = tree.path id :=
  (edit.sameUpward h).path_eq h (edit.linked h) hid hid' hspared

end Edit

section Walk

variable {P : Type} {tree later : Tree P} {id : NodeId}

/-- An operation that displaces neither a node nor one above it. -/
inductive Spares (id : NodeId) (tree : Tree P) : Tree P → Prop
  | intro (edit : Edit P) (spared : ∀ other ∈ edit.displaced tree, ¬tree.Above other id) :
      Spares id tree (edit.apply tree)

theorem path_eq_of_spares (h : tree.Linked) (hspares : ReflTransGen (Spares id) tree later)
    (hid : tree.contains id = true) :
    later.Linked ∧ later.Succeeds tree ∧
      (later.contains id = true → later.path id = tree.path id) := by
  induction hspares with
  | refl => exact ⟨h, .refl tree, fun _ => rfl⟩
  | @tail between later _ spares ih =>
    obtain ⟨edit, hspared⟩ := spares
    obtain ⟨hlinked, hsucceeds, hpath⟩ := ih
    have hstep := (edit.operation between).succeeds
    refine ⟨edit.linked hlinked, hsucceeds.trans hstep, fun hid' => ?_⟩
    have hbetween : between.contains id = true := by
      apply hstep.contains_of_lt _ hid'
      exact Nat.lt_of_lt_of_le (lt_bound_of_contains hid) hsucceeds.bound_le
    rw [edit.path_eq hlinked hbetween hid' hspared, hpath hbetween]

theorem path_eq_of_revise {State : Type} (h : tree.Linked) {holds : Tree P → State → Prop}
    {visitor : Tree P → NodeId → Nat → State → Signal × Tree P × State}
    (hspares : EditsBy (Spares id) holds visitor) {state : State} (hholds : holds tree state)
    (hid : tree.contains id = true) (budget : Nat) (start : NodeId)
    (hid' : (tree.revise budget start visitor state).2.1.contains id = true) :
    (tree.revise budget start visitor state).2.1.path id = tree.path id := by
  have hwalk := reviseOver_induction visitor
    (fun later state => holds later state ∧ ReflTransGen (Spares id) tree later)
    (fun later node depth state hvisit => ⟨hspares.keeps node depth hvisit.1,
      hvisit.2.trans (hspares.edits node depth hvisit.1)⟩)
    budget [(start, 0)] ⟨hholds, .refl⟩
  exact (path_eq_of_spares h hwalk.2 hid).2.2 hid'

end Walk

/-- Every operation leaves the path of a node that stays as it is unless it renames or moves the node
or one above it, and so does a walk of operations that do not. A new name takes the place of the
segment at the depth of the renamed node in the paths at and below it. A moved node has the path of its
new parent with its own name behind it, and below it paths go on as they did; all others stay. -/
theorem paths_change_from_above {P : Type} {good : P → Prop} {tree : Tree P}
    (hreach : Reachable good tree) :
    (∀ later, Operation tree later ↔ ∃ edit : Edit P, edit.apply tree = later) ∧
    (∀ (edit : Edit P) id, tree.contains id = true → (edit.apply tree).contains id = true →
      (edit.apply tree).path id = tree.path id ∨
        ∃ other ∈ edit.displaced tree, tree.Above other id) ∧
    (∀ id, tree.contains id = true → ∀ (State : Type) (holds : Tree P → State → Prop)
      (visitor : Tree P → NodeId → Nat → State → Signal × Tree P × State) (state : State),
      EditsBy (Spares id) holds visitor → holds tree state → ∀ budget start,
      (tree.revise budget start visitor state).2.1.contains id = true →
      (tree.revise budget start visitor state).2.1.path id = tree.path id) ∧
    (∀ top name, tree.contains top = true → ∃ depth, (tree.path top).length = depth + 1 ∧
      ∀ id, tree.contains id = true →
        (tree.Above top id → depth < (tree.path id).length ∧
          ((tree.rename top name).1.path id).segments =
            (tree.path id).segments.set depth name) ∧
        (¬tree.Above top id → (tree.rename top name).1.path id = tree.path id)) ∧
    ∀ top parent moved, tree.moveNode top parent = (moved, .ok ()) →
      ∀ id, tree.contains id = true →
        (tree.Above top id → ∃ rest, tree.pathFrom? top id = some rest ∧
          moved.pathFrom? top id = some rest ∧
          moved.path id = ((tree.path parent).append (tree.title top)).appendAll rest.segments) ∧
        (¬tree.Above top id → moved.path id = tree.path id) := by
  have h := hreach.linked
  refine ⟨fun later => Edit.operation_iff, ?_, ?_, ?_, ?_⟩
  · intro edit id hid hid'
    by_contra! hchanged
    obtain ⟨hpath, hspared⟩ := hchanged
    exact hpath (edit.path_eq h hid hid' hspared)
  · intro id hid State holds visitor state hspares hholds budget start hid'
    exact path_eq_of_revise h hspares hholds hid budget start hid'
  · intro top name htop
    obtain ⟨front, hpath, _⟩ := h.path_rename_self htop name
    have hdepth : (tree.path top).length = front.length + 1 := by simp [hpath, Path.length]
    exact ⟨front.length, hdepth, fun id hid =>
      ⟨h.path_rename htop name hdepth hid, h.path_rename_outside htop name hid⟩⟩
  · intro top parent moved move id hid
    obtain ⟨hmovable, rfl⟩ := movable_of_moveNode_ok move
    exact ⟨h.path_relink hmovable hid, h.path_relink_outside hmovable hid⟩

private def valley : Tree Nat :=
  ofOutline ⟨⟨some "valley", 0⟩,
    .cons ⟨some "mill", 1⟩ (.cons ⟨some "wheel", 2⟩ (.cons ⟨some "axle", 3⟩ .nil .nil) .nil)
      (.cons ⟨some "ford", 4⟩ (.cons ⟨some "raft", 5⟩ .nil .nil) .nil)⟩

/-- Takes the rafts away wherever they are. -/
private def flood (tree : Tree Nat) (id : NodeId) (_depth : Nat) (state : Unit) :
    Signal × Tree Nat × Unit :=
  (.proceed, (tree.removeChild id "raft").1, state)

theorem paths_change_from_above_valley :
    Reachable (fun _ => True) valley ∧
    (valley.detach 4).1.path 3 = valley.path 3 ∧
    EditsBy (Spares 3) (fun _ _ => True) flood ∧
    (valley.revise 6 root flood ()).2.1.path 3 = valley.path 3 ∧
    valley.contains 1 = true ∧
    ((valley.rename 1 "forge").1.path 3).segments = ["valley", "forge", "wheel", "axle"] ∧
    (valley.rename 1 "forge").1.path 5 = valley.path 5 ∧
    ∃ moved, valley.moveNode 2 4 = (moved, .ok ()) ∧
      moved.path 3 = ⟨["valley", "ford", "wheel", "axle"]⟩ ∧ moved.path 5 = valley.path 5 := by
  have hreach : Reachable (fun _ => True) valley := reachable_ofOutline _ trivial fun _ _ => trivial
  obtain ⟨_, hedits, hwalks, hrename, hmove⟩ := paths_change_from_above hreach
  have hwheel : valley.Above 2 3 := .child rfl .self
  have hmill : valley.Above 1 3 := .child rfl (.child rfl .self)
  have hraft : ∀ top, valley.Above top 5 → top = 5 ∨ top = 4 ∨ top = 0 := by
    intro top habove
    have hlisted := (hreach.linked.isAbove_iff rfl).mpr habove
    have hlineage : valley.lineage 5 = [5, 4, 0] := rfl
    simpa [isAbove, hlineage] using hlisted
  have hflood : EditsBy (Spares 3) (fun _ _ => True) flood :=
    ⟨fun id _ _ => .single (.intro (.removeChild id "raft") (by simp [Edit.displaced])),
      fun _ _ _ => trivial⟩
  refine ⟨hreach, ?_, hflood, hwalks 3 rfl Unit _ flood () hflood trivial 6 root rfl, rfl, ?_, ?_, ?_⟩
  · rcases hedits (.detach 4) 3 rfl rfl with hkept | ⟨other, hother, _⟩
    · exact hkept
    · simp [Edit.displaced] at hother
  · obtain ⟨depth, hdepth, hpaths⟩ := hrename 1 "forge" rfl
    have htwo : (valley.path 1).length = 2 := rfl
    obtain rfl : depth = 1 := by omega
    rw [((hpaths 3 rfl).1 hmill).2]
    rfl
  · obtain ⟨depth, _, hpaths⟩ := hrename 1 "forge" rfl
    exact (hpaths 5 rfl).2 fun habove => by simpa using hraft 1 habove
  · have move : valley.moveNode 2 4 = (_, .ok ()) := rfl
    obtain ⟨rest, hrest, _, hpath⟩ := (hmove 2 4 _ move 3 rfl).1 hwheel
    have haxle : valley.pathFrom? 2 3 = some ⟨["axle"]⟩ := rfl
    rw [haxle] at hrest
    cases hrest
    exact ⟨_, move, hpath, (hmove 2 4 _ move 5 rfl).2 fun habove => by simpa using hraft 2 habove⟩

end Conform.Tree
