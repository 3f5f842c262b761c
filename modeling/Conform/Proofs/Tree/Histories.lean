import Mathlib.Logic.Relation
import Conform.Proofs.Coercion.Pass
import Conform.Proofs.Tree.Transfers
/-!
# Histories

What a tree goes through from operation to operation. Slots are only added and
a slot that was emptied is never filled again, so a number belongs to one node
for good: it is new when it is given, and once its node has left it names
nothing.
-/

namespace Conform.Tree

universe u

open Relation (ReflTransGen)

/-- A later state of the same slots: there may be more of them, and of those there were none has
been filled. -/
structure Succeeds {P : Type u} (later tree : Tree P) : Prop where
  bound_le : tree.bound ≤ later.bound
  contains_of_lt {id : NodeId} (old : id < tree.bound) (held : later.contains id = true) :
    tree.contains id = true

namespace Succeeds

variable {P : Type u} {tree later latest : Tree P}

theorem of_contains (hbound : later.bound = tree.bound)
    (hcontains : ∀ id, later.contains id = true → tree.contains id = true) :
    later.Succeeds tree :=
  ⟨Nat.le_of_eq hbound.symm, fun _ => hcontains _⟩

theorem refl (tree : Tree P) : tree.Succeeds tree := of_contains rfl fun _ held => held

theorem trans (h : later.Succeeds tree) (h' : latest.Succeeds later) : latest.Succeeds tree where
  bound_le := Nat.le_trans h.bound_le h'.bound_le
  contains_of_lt old held :=
    h.contains_of_lt old (h'.contains_of_lt (Nat.lt_of_lt_of_le old h.bound_le) held)

theorem of_sameFrame (h : later.SameFrame tree) : later.Succeeds tree :=
  of_contains h.bound fun id held => by rwa [← h.contains id]

theorem update (tree : Tree P) (id : NodeId) (change : Node P → Node P) :
    (tree.update id change).Succeeds tree :=
  of_contains (bound_update _ _ _) fun other held => by rwa [contains_update] at held

theorem grow (tree : Tree P) (parent : NodeId) (label : Label P) :
    (tree.grow parent label).Succeeds tree where
  bound_le := by
    rw [Tree.grow, bound_update, bound_push]
    exact Nat.le_succ _
  contains_of_lt {id} old held :=
    ((contains_grow tree parent label id).mp held).resolve_left (Nat.ne_of_lt old)

theorem sprout (forest : Forest (Label P)) (parent : NodeId) (tree : Tree P) :
    (sprout parent forest tree).Succeeds tree := by
  induction forest generalizing parent tree with
  | nil => exact .refl tree
  | cons label below rest ihbelow ihrest =>
    rw [Tree.sprout]
    exact ((grow tree parent label).trans (ihbelow _ _)).trans (ihrest _ _)

theorem prune (tree : Tree P) (id : NodeId) : (tree.prune id).Succeeds tree := by
  apply of_contains (bound_prune tree id)
  intro other held
  rw [Tree.prune, contains, find?_foldl_erase] at held
  by_cases hgone : other ∈ (tree.unlink id).descendants id
  · simp [hgone] at held
  · rw [if_neg hgone] at held
    exact (contains_unlink tree id other).symm.trans held

theorem foldl_prune (doomed : List NodeId) (tree : Tree P) :
    (doomed.foldl Tree.prune tree).Succeeds tree := by
  induction doomed generalizing tree with
  | nil => exact .refl tree
  | cons id rest ih => exact (prune tree id).trans (ih _)

/-! ## Single operations -/

theorem rename (tree : Tree P) (id : NodeId) (name : String) :
    (tree.rename id name).1.Succeeds tree := by
  rw [Tree.rename]
  split
  · exact update tree id _
  · exact .refl tree

theorem addChild (tree : Tree P) (parent : NodeId) (name : String) (payload : P) :
    (tree.addChild parent name payload).1.Succeeds tree := by
  by_cases hparent : tree.contains parent = true
  · rw [addChild_eq hparent]
    exact grow tree parent _
  · rw [Tree.addChild, if_neg hparent]
    exact .refl tree

theorem moveNode (tree : Tree P) (id parent : NodeId) :
    (tree.moveNode id parent).1.Succeeds tree := by
  by_cases hmovable : tree.Movable id parent
  · rw [moveNode_of_movable hmovable]
    apply of_contains
    · rw [relink, bound_update, bound_update, bound_unlink]
    · intro other held
      rwa [contains_relink] at held
  · obtain ⟨failure, hfail⟩ := moveNode_of_not_movable hmovable
    rw [hfail]
    exact .refl tree

theorem addChildren (tree : Tree P) (parent : NodeId) (ids : List NodeId) :
    (tree.addChildren parent ids).1.Succeeds tree := by
  induction ids generalizing tree with
  | nil => exact .refl tree
  | cons id rest ih =>
    have hmoved := moveNode tree id parent
    rw [Tree.addChildren]
    split
    · next moved heq =>
      rw [heq] at hmoved
      exact hmoved.trans (ih moved)
    · next left failure heq =>
      rw [heq] at hmoved
      exact hmoved

theorem graft (tree : Tree P) (parent : NodeId) (other : Tree P) :
    (tree.graft parent other).1.Succeeds tree := by
  by_cases hparent : tree.contains parent = true
  · cases houtline : other.outline? root with
    | none =>
      rw [Tree.graft, if_pos hparent]
      simpa only [houtline] using Succeeds.refl tree
    | some outline =>
      rw [graft_eq hparent houtline]
      exact sprout _ parent tree
  · rw [Tree.graft, if_neg hparent]
    exact .refl tree

theorem detach (tree : Tree P) (id : NodeId) : (tree.detach id).1.Succeeds tree := by
  rw [Tree.detach]
  split
  · exact .refl tree
  · split
    · exact prune tree id
    · exact .refl tree

theorem removeChild (tree : Tree P) (parent : NodeId) (name : String) :
    (tree.removeChild parent name).1.Succeeds tree :=
  foldl_prune _ tree

theorem replaceChild (tree : Tree P) (parent : NodeId) (other : Tree P) :
    (tree.replaceChild parent other).1.Succeeds tree := by
  rw [Tree.replaceChild]
  split
  · next name _ => exact (removeChild tree parent name).trans (graft _ parent other)
  · exact graft tree parent other

end Succeeds

theorem conformInPlace_succeeds (atlas : Atlas) (schema : Schema) (settings : Settings)
    (request : Request) : (schema.conformInPlace atlas settings request).1.Succeeds request := by
  have hwalk : (reviseOver (schema.visit atlas settings.zone) request.bound [(root, 0)] request
      .fresh).2.1.SameFrame request :=
    reviseOver_induction (schema.visit atlas settings.zone)
      (fun later (_ : Pass) => later.SameFrame request)
      (fun later id depth pass hframe =>
        ((Schema.plain_visit atlas schema settings.zone).sameFrame later id depth pass).trans hframe)
      request.bound [(root, 0)] (.refl request)
  exact .of_sameFrame hwalk

theorem conform_succeeds (atlas : Atlas) (schema : Schema) (settings : Settings)
    (request : Request) : (schema.conform atlas settings request).1.Succeeds request := by
  rw [Schema.conform_eq]
  split
  · exact conformInPlace_succeeds atlas schema settings request
  · exact .refl request

/-! ## Operations one after another -/

/-- One operation on a tree, whether it succeeds or fails; requests can also be coerced. Walks are
none: they carry out the operations of their visitors. -/
inductive Operation : {P : Type} → Tree P → Tree P → Prop
  | rename {P : Type} (tree : Tree P) (id : NodeId) (name : String) :
      Operation tree (tree.rename id name).1
  | updatePayload {P : Type} (tree : Tree P) (id : NodeId) (change : P → P) :
      Operation tree (tree.updatePayload id change)
  | addChild {P : Type} (tree : Tree P) (parent : NodeId) (name : String) (payload : P) :
      Operation tree (tree.addChild parent name payload).1
  | addChildren {P : Type} (tree : Tree P) (parent : NodeId) (ids : List NodeId) :
      Operation tree (tree.addChildren parent ids).1
  | moveNode {P : Type} (tree : Tree P) (id parent : NodeId) :
      Operation tree (tree.moveNode id parent).1
  | graft {P : Type} (tree : Tree P) (parent : NodeId) (other : Tree P) :
      Operation tree (tree.graft parent other).1
  | detach {P : Type} (tree : Tree P) (id : NodeId) : Operation tree (tree.detach id).1
  | removeChild {P : Type} (tree : Tree P) (parent : NodeId) (name : String) :
      Operation tree (tree.removeChild parent name).1
  | replaceChild {P : Type} (tree : Tree P) (parent : NodeId) (other : Tree P) :
      Operation tree (tree.replaceChild parent other).1
  | conform (atlas : Atlas) (schema : Schema) (settings : Settings) (request : Request) :
      Operation request (schema.conform atlas settings request).1
  | conformInPlace (atlas : Atlas) (schema : Schema) (settings : Settings) (request : Request) :
      Operation request (schema.conformInPlace atlas settings request).1

/-- What operations on one tree can make of it, moment after moment. -/
abbrev Becomes {P : Type} (tree later : Tree P) : Prop := ReflTransGen Operation tree later

/-- The number is the answer of an operation that gives a tree a new node. -/
inductive Issues {P : Type} (tree : Tree P) (id : NodeId) : Prop
  | addChild (parent : NodeId) (name : String) (payload : P)
      (answer : (tree.addChild parent name payload).2 = .ok id) : Issues tree id
  | graft (parent : NodeId) (other : Tree P) (answer : (tree.graft parent other).2 = .ok id) :
      Issues tree id
  | replaceChild (parent : NodeId) (other : Tree P)
      (answer : (tree.replaceChild parent other).2 = .ok id) : Issues tree id

section History

variable {P : Type} {tree later : Tree P}

theorem Operation.succeeds (h : Operation tree later) : later.Succeeds tree := by
  cases h with
  | rename _ id name => exact .rename tree id name
  | updatePayload _ id change => exact .update tree id _
  | addChild _ parent name payload => exact .addChild tree parent name payload
  | addChildren _ parent ids => exact .addChildren tree parent ids
  | moveNode _ id parent => exact .moveNode tree id parent
  | graft _ parent other => exact .graft tree parent other
  | detach _ id => exact .detach tree id
  | removeChild _ parent name => exact .removeChild tree parent name
  | replaceChild _ parent other => exact .replaceChild tree parent other
  | conform atlas schema settings => exact conform_succeeds atlas schema settings _
  | conformInPlace atlas schema settings => exact conformInPlace_succeeds atlas schema settings _

theorem Becomes.succeeds (h : tree.Becomes later) : later.Succeeds tree := by
  induction h with
  | refl => exact .refl tree
  | tail _ step ih => exact ih.trans step.succeeds

theorem eq_bound_of_graft {parent id : NodeId} {other : Tree P}
    (h : (tree.graft parent other).2 = .ok id) : id = tree.bound := by
  by_cases hparent : tree.contains parent = true
  · cases houtline : other.outline? root with
    | none => simp [Tree.graft, hparent, houtline] at h
    | some outline =>
      rw [graft_eq hparent houtline] at h
      exact (Except.ok.inj h).symm
  · simp [Tree.graft, hparent] at h

/-- A new node gets the number of the next slot, also when others were removed for it. -/
theorem Issues.eq_bound {id : NodeId} (h : tree.Issues id) : id = tree.bound := by
  cases h with
  | addChild parent name payload answer =>
    by_cases hparent : tree.contains parent = true
    · rw [addChild_eq hparent] at answer
      exact (Except.ok.inj answer).symm
    · simp [Tree.addChild, hparent] at answer
  | graft parent other answer => exact eq_bound_of_graft answer
  | replaceChild parent other answer =>
    rw [Tree.replaceChild] at answer
    split at answer
    · next name _ => rw [eq_bound_of_graft answer, bound_removeChild]
    · exact eq_bound_of_graft answer

section Walk

variable {State : Type} {holds : Tree P → State → Prop}
  {visitor : Tree P → NodeId → Nat → State → Signal × Tree P × State}
  (edits : ∀ tree id depth state, holds tree state →
    tree.Becomes (visitor tree id depth state).2.1 ∧
      holds (visitor tree id depth state).2.1 (visitor tree id depth state).2.2)

include edits

theorem becomes_reviseOver (budget : Nat) (todo : List (NodeId × Nat)) {state : State}
    (begins : holds tree state) : tree.Becomes (reviseOver visitor budget todo tree state).2.1 := by
  have hwalk := reviseOver_induction visitor
    (fun later state => holds later state ∧ tree.Becomes later)
    (fun later id depth state hvisit =>
      ⟨(edits later id depth state hvisit.1).2,
        hvisit.2.trans (edits later id depth state hvisit.1).1⟩)
    budget todo ⟨begins, .refl⟩
  exact hwalk.2

/-- A walk that is given more steps goes on from where it was. -/
theorem reviseOver_becomes (budget more : Nat) (todo : List (NodeId × Nat)) {state : State}
    (begins : holds tree state) :
    (reviseOver visitor budget todo tree state).2.1.Becomes
      (reviseOver visitor (budget + more) todo tree state).2.1 := by
  induction budget generalizing todo tree state with
  | zero =>
    have hstart : (reviseOver visitor 0 todo tree state).2.1 = tree := by
      cases todo <;> rfl
    rw [hstart]
    exact becomes_reviseOver edits _ todo begins
  | succ budget ih =>
    rw [Nat.succ_add]
    cases todo with
    | nil => exact .refl
    | cons next rest =>
      obtain ⟨id, depth⟩ := next
      have hkept := (edits tree id depth state begins).2
      rw [reviseOver, reviseOver]
      by_cases hcontains : tree.contains id = true
      · rw [if_pos hcontains, if_pos hcontains]
        cases hcall : visitor tree id depth state with
        | mk signal after =>
          rw [hcall] at hkept
          cases signal with
          | proceed => exact ih _ hkept
          | skip => exact ih _ hkept
          | stop => exact .refl
      · rw [if_neg hcontains, if_neg hcontains]
        exact ih rest begins

end Walk

end History

/-- A number whose node has left a tree never comes back, and a number that an operation answers
with was never in the tree before. A walk whose visitor edits the tree goes from moment to moment
by the operations of its visitor. -/
theorem numbers_never_reused {P : Type} (tree : Tree P) :
    (∀ left later id, tree.Becomes left → left.Becomes later → tree.contains id = true →
      ¬left.contains id = true → ¬later.contains id = true) ∧
    (∀ now id, tree.Becomes now → now.Issues id → ¬tree.contains id = true) ∧
    ∀ (start : NodeId) (State : Type) (holds : Tree P → State → Prop)
      (visitor : Tree P → NodeId → Nat → State → Signal × Tree P × State) (state : State),
      holds tree state →
      (∀ tree id depth state, holds tree state →
        tree.Becomes (visitor tree id depth state).2.1 ∧
          holds (visitor tree id depth state).2.1 (visitor tree id depth state).2.2) →
      ∀ budget more, tree.Becomes (tree.revise budget start visitor state).2.1 ∧
        (tree.revise budget start visitor state).2.1.Becomes
          (tree.revise (budget + more) start visitor state).2.1 := by
  refine ⟨?_, ?_, ?_⟩
  · intro left later id hleft hlater hheld hgone hback
    have hold : id < left.bound :=
      Nat.lt_of_lt_of_le (lt_bound_of_contains hheld) hleft.succeeds.bound_le
    exact hgone (hlater.succeeds.contains_of_lt hold hback)
  · intro now id hnow hissued hheld
    have hlt : now.bound < tree.bound := hissued.eq_bound ▸ lt_bound_of_contains hheld
    exact Nat.not_lt.mpr hnow.succeeds.bound_le hlt
  · intro start State holds visitor state begins edits budget more
    exact ⟨becomes_reviseOver edits budget _ begins, reviseOver_becomes edits budget more _ begins⟩

private def parcel : Request :=
  ofOutline ⟨⟨some "parcel", .blank⟩,
    .cons ⟨some "goods", .blank⟩ (.cons ⟨some "boots", .number (.integer 2)⟩ .nil .nil)
      (.cons ⟨some "sent", .number (.integer 0)⟩ .nil .nil)⟩

private def parcelSchema : Schema :=
  ofOutline ⟨⟨some "parcel", .blank⟩, .cons ⟨some "sent", .ofKind .date⟩ .nil .nil⟩

/-- Removes the goods wherever they are. -/
private def unpack (tree : Request) (id : NodeId) (_depth : Nat) (state : Unit) :
    Signal × Request × Unit :=
  (.proceed, (tree.removeChild id "goods").1, state)

private def unpacked : Request := (parcel.revise 8 root unpack ()).2.1

private def resent : Request := (unpacked.replaceChild root (single ⟨some "sent", .date 0⟩)).1

theorem numbers_never_reused_parcel :
    parcel.Becomes unpacked ∧ unpacked.Becomes (parcelSchema.conform .london ⟨.utc⟩ resent).1 ∧
    parcel.contains 2 = true ∧ ¬unpacked.contains 2 = true ∧
    ¬(parcelSchema.conform .london ⟨.utc⟩ resent).1.contains 2 = true ∧
    (unpacked.replaceChild root (single ⟨some "sent", .date 0⟩)).2 = .ok 4 ∧
    ¬parcel.contains 4 = true := by
  obtain ⟨hgone, hnew, hwalk⟩ := numbers_never_reused parcel
  have hunpacked : parcel.Becomes unpacked :=
    (hwalk root Unit (fun _ _ => True) unpack () trivial (fun tree id _ _ _ =>
      ⟨.single (.removeChild tree id "goods"), trivial⟩) 8 0).1
  have hlater : unpacked.Becomes (parcelSchema.conform .london ⟨.utc⟩ resent).1 :=
    .tail (.single (.replaceChild unpacked root _)) (.conform .london parcelSchema ⟨.utc⟩ resent)
  have hleft : ¬unpacked.contains 2 = true := by decide
  have hanswer : (unpacked.replaceChild root (single ⟨some "sent", .date 0⟩)).2 = .ok 4 := rfl
  exact ⟨hunpacked, hlater, rfl, hleft, hgone _ _ 2 hunpacked hlater rfl hleft, hanswer,
    hnew unpacked 4 hunpacked (.replaceChild _ _ hanswer)⟩

end Conform.Tree
