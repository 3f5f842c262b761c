import Conform.Proofs.Tree.Growth
import Conform.Tree.Walk
/-!
# Walks of visitors that leave the links alone

A visitor that changes no links and leaves out no subtree is called on the
nodes of the subtree in pre-order, as a plain list of calls tells it. What it
does to the tree at one call does not disturb the calls still to come.
-/

namespace Conform

universe u v

/-- The calls of a walk over a forest: every node with its depth. -/
def Forest.calls {α : Type u} (depth : Nat) : Forest (NodeId × α) → List (NodeId × Nat)
  | .nil => []
  | .cons root below rest => (root.1, depth) :: (below.calls (depth + 1) ++ rest.calls depth)

theorem Forest.map_fst_calls {α : Type u} (forest : Forest (NodeId × α)) (depth : Nat) :
    (forest.calls depth).map (·.1) = forest.numbers := by
  induction forest generalizing depth with
  | nil => rfl
  | cons root below rest ihbelow ihrest => simp [calls, ihbelow, ihrest]

namespace Tree

variable {P : Type u} {State : Type v}

/-- The same nodes with the same names and links; only payloads may differ. -/
structure SameFrame (tree other : Tree P) : Prop where
  bound : tree.bound = other.bound
  contains (id : NodeId) : tree.contains id = other.contains id
  name? (id : NodeId) : tree.name? id = other.name? id
  parent? (id : NodeId) : tree.parent? id = other.parent? id
  children (id : NodeId) : tree.children id = other.children id

namespace SameFrame

variable {tree other third : Tree P}

theorem refl (tree : Tree P) : tree.SameFrame tree :=
  ⟨rfl, fun _ => rfl, fun _ => rfl, fun _ => rfl, fun _ => rfl⟩

theorem symm (h : tree.SameFrame other) : other.SameFrame tree where
  bound := h.bound.symm
  contains id := (h.contains id).symm
  name? id := (h.name? id).symm
  parent? id := (h.parent? id).symm
  children id := (h.children id).symm

theorem trans (h : tree.SameFrame other) (h' : other.SameFrame third) : tree.SameFrame third where
  bound := h.bound.trans h'.bound
  contains id := (h.contains id).trans (h'.contains id)
  name? id := (h.name? id).trans (h'.name? id)
  parent? id := (h.parent? id).trans (h'.parent? id)
  children id := (h.children id).trans (h'.children id)

theorem isLeaf (h : tree.SameFrame other) (id : NodeId) : tree.isLeaf id = other.isLeaf id := by
  rw [Tree.isLeaf, Tree.isLeaf, h.children]

theorem lineage (h : tree.SameFrame other) (id : NodeId) : tree.lineage id = other.lineage id := by
  have hclimb : ∀ steps id, tree.climb steps id = other.climb steps id := by
    intro steps
    induction steps with
    | zero => exact fun _ => rfl
    | succ steps ih =>
      intro id
      simp only [climb, h.parent?, ih]
  rw [Tree.lineage, Tree.lineage, h.bound, hclimb]

theorem pathFrom? (h : tree.SameFrame other) (ancestor id : NodeId) :
    tree.pathFrom? ancestor id = other.pathFrom? ancestor id := by
  have htitle : tree.title = other.title := by
    funext id
    rw [title, title, h.name?]
  rw [Tree.pathFrom?, Tree.pathFrom?, h.lineage, htitle]

theorem linked (h : tree.SameFrame other) (hother : other.Linked) : tree.Linked :=
  hother.of_same_links h.contains h.parent? h.children

theorem eq_of_payload? (h : tree.SameFrame other)
    (hpayload : ∀ id, tree.payload? id = other.payload? id) : tree = other := by
  refine ext_find? h.bound fun id => ?_
  have hcontains := h.contains id
  have hname := h.name? id
  have hparent := h.parent? id
  have hchildren := h.children id
  have hheld := hpayload id
  simp only [Tree.contains, Tree.name?, Tree.parent?, Tree.children, Tree.payload?]
    at hcontains hname hparent hchildren hheld
  cases hnode : tree.find? id with
  | none =>
    cases hother : other.find? id with
    | none => rfl
    | some node => simp [hnode, hother] at hcontains
  | some node =>
    cases hother : other.find? id with
    | none => simp [hnode, hother] at hcontains
    | some node' =>
      obtain ⟨⟨name, payload⟩, parent, children⟩ := node
      obtain ⟨⟨name', payload'⟩, parent', children'⟩ := node'
      simp_all

theorem updatePayload (tree : Tree P) (id : NodeId) (change : P → P) :
    (tree.updatePayload id change).SameFrame tree where
  bound := bound_update _ _ _
  contains other := tree.contains_update id other _
  name? other := by
    rw [Tree.name?, Tree.name?, Tree.updatePayload, find?_update]
    split
    · next h =>
      subst h
      cases tree.find? other <;> rfl
    · rfl
  parent? other := tree.parent?_update id other _ fun _ => rfl
  children other := tree.children_update id other _ fun _ => rfl

end SameFrame

theorem payload?_updatePayload (tree : Tree P) (id other : NodeId) (change : P → P) :
    (tree.updatePayload id change).payload? other =
      if other = id then (tree.payload? id).map change else tree.payload? other := by
  rw [payload?, payload?, updatePayload, find?_update]
  split
  · cases tree.find? id <;> rfl
  · rfl

/-- Calls made one after another, up to the first that stops. -/
def visitEach (visitor : Tree P → NodeId → Nat → State → Signal × Tree P × State) :
    List (NodeId × Nat) → Tree P → State → Ending × Tree P × State
  | [], tree, state => (.finished, tree, state)
  | (id, depth) :: rest, tree, state =>
    match visitor tree id depth state with
    | (.stop, tree, state) => (.stopped, tree, state)
    | (_, tree, state) => visitEach visitor rest tree state

theorem visitEach_append (visitor : Tree P → NodeId → Nat → State → Signal × Tree P × State)
    (first second : List (NodeId × Nat)) (tree : Tree P) (state : State) :
    visitEach visitor (first ++ second) tree state =
      match visitEach visitor first tree state with
      | (.finished, tree, state) => visitEach visitor second tree state
      | ended => ended := by
  induction first generalizing tree state with
  | nil => rfl
  | cons call rest ih =>
    simp only [List.cons_append, visitEach]
    split
    · rfl
    · exact ih _ _

/-- A visitor that changes no links and leaves out no subtree. -/
structure Plain (visitor : Tree P → NodeId → Nat → State → Signal × Tree P × State) : Prop where
  ne_skip (tree : Tree P) (id : NodeId) (depth : Nat) (state : State) :
    (visitor tree id depth state).1 ≠ .skip
  sameFrame (tree : Tree P) (id : NodeId) (depth : Nat) (state : State) :
    (visitor tree id depth state).2.1.SameFrame tree

variable {visitor : Tree P → NodeId → Nat → State → Signal × Tree P × State}

theorem Plain.sameFrame_visitEach (hplain : Plain visitor) (calls : List (NodeId × Nat))
    (tree : Tree P) (state : State) :
    (visitEach visitor calls tree state).2.1.SameFrame tree := by
  induction calls generalizing tree state with
  | nil => exact .refl tree
  | cons call rest ih =>
    have hvisit := hplain.sameFrame tree call.1 call.2 state
    rw [visitEach]
    split
    · next heq => rwa [heq] at hvisit
    · next heq =>
      rw [heq] at hvisit
      exact (ih _ _).trans hvisit

theorem Plain.reviseOver_append (hplain : Plain visitor) {origin : Tree P} {ids : List NodeId}
    {forest : Forest (NodeId × Node P)} (hspan : origin.Spans ids forest) (depth : Nat)
    (rest : List (NodeId × Nat)) {budget : Nat} (hbudget : forest.size ≤ budget) {tree : Tree P}
    (hframe : tree.SameFrame origin) (state : State) :
    reviseOver visitor budget (ids.map (·, depth) ++ rest) tree state =
      match visitEach visitor (forest.calls depth) tree state with
      | (.finished, tree, state) => reviseOver visitor (budget - forest.size) rest tree state
      | ended => ended := by
  induction hspan generalizing depth rest budget tree state with
  | nil => rfl
  | @cons id node others below right found _ _ ihdown ihright =>
    cases budget with
    | zero => simp [Forest.size] at hbudget
    | succ budget =>
      rw [Forest.size] at hbudget
      have hcontains : tree.contains id = true := by
        rw [hframe.contains, contains_iff]
        exact ⟨node, found⟩
      have hskip := hplain.ne_skip tree id depth state
      have hvisit := hplain.sameFrame tree id depth state
      simp only [List.map_cons, List.cons_append, reviseOver, hcontains, if_true, Forest.calls,
        visitEach]
      cases hcall : visitor tree id depth state with
      | mk signal after =>
        obtain ⟨changed, state⟩ := after
        rw [hcall] at hskip hvisit
        have hframe' := hvisit.trans hframe
        cases signal with
        | stop => rfl
        | skip => exact absurd rfl hskip
        | proceed =>
          have hchildren : changed.children id = node.children := by
            rw [hframe'.children, children_of_find? found]
          have hroom : budget + 1 - (below.size + right.size + 1) =
              budget - below.size - right.size := by
            omega
          have hdown : below.size ≤ budget := by omega
          have hright : right.size ≤ budget - below.size := by omega
          simp only [hchildren]
          rw [ihdown _ _ hdown hframe', visitEach_append, Forest.size, hroom]
          have hbelow := hplain.sameFrame_visitEach (below.calls (depth + 1)) changed state
          generalize visitEach visitor (below.calls (depth + 1)) changed state = done at hbelow ⊢
          obtain ⟨ending, left, state'⟩ := done
          cases ending with
          | finished => exact ihright depth rest hright (hbelow.trans hframe') state'
          | stopped => rfl
          | exhausted => rfl

/-- The walk through a whole tree makes one call for every node, in pre-order. -/
theorem Plain.revise_eq (hplain : Plain visitor) {tree : Tree P} (h : tree.Linked) (state : State) :
    ∃ calls : List (NodeId × Nat), calls.map (·.1) = tree.descendants root ∧
      tree.revise tree.bound root visitor state = visitEach visitor calls tree state := by
  obtain ⟨node, hnode⟩ := contains_iff.mp h.contains_root
  have hspan := h.spans_singleton hnode
  have hsize := h.size_le_bound hspan (tree.apart_singleton root)
  refine ⟨_, (Forest.map_fst_calls _ 0).trans (hspan.descendants_eq hsize).symm, ?_⟩
  have hwalk := hplain.reviseOver_append hspan 0 [] hsize (.refl tree) state
  rw [List.append_nil] at hwalk
  rw [revise, show [(root, 0)] = [root].map (·, 0) from rfl, hwalk]
  generalize visitEach visitor _ tree state = ended
  obtain ⟨ending, after⟩ := ended
  cases ending with
  | finished => cases tree.bound - Forest.size _ <;> rfl
  | stopped => rfl
  | exhausted => rfl

def leaves (tree : Tree P) : List NodeId := (tree.descendants root).filter tree.isLeaf

theorem Linked.mem_leaves_iff {tree : Tree P} (h : tree.Linked) (id : NodeId) :
    id ∈ tree.leaves ↔ tree.contains id = true ∧ tree.isLeaf id = true := by
  rw [leaves, List.mem_filter, h.mem_descendants_iff h.contains_root]
  constructor
  · rintro ⟨⟨hid, _⟩, hleaf⟩
    exact ⟨hid, hleaf⟩
  · rintro ⟨hid, hleaf⟩
    exact ⟨⟨hid, h.root_isAbove hid⟩, hleaf⟩

theorem Linked.nodup_leaves {tree : Tree P} (h : tree.Linked) : tree.leaves.Nodup :=
  (h.nodup_descendants h.contains_root).filter _

end Tree

end Conform
