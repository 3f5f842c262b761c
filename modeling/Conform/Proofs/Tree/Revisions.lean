import Mathlib.Logic.Relation
import Conform.Proofs.Tree.Trails
/-!
# Walks that relabel or remove

What is known of a walk from the edits that its visitor makes. Changes of names
and payloads do not show in the calls, which are those of a tour through the
tree as it was. When nodes are only removed the walk ends: its turns come to
nodes that were there at the beginning, and to none of them twice.
-/

namespace Conform

universe u v

open Relation (ReflTransGen)
open Conform.Tree (root)

/-- The visitor with the tree it changes in its own state; the tree it is called on stays as it
is. -/
def aside {P : Type u} {σ : Type v} (visitor : Tree P → NodeId → Nat → σ → Signal × Tree P × σ)
    (id : NodeId) (depth : Nat) (here : Tree P × σ) : Signal × Tree P × σ :=
  visitor here.1 id depth here.2

namespace Tree

variable {P : Type u} {σ : Type v}

/-- A visitor whose changes of the tree are edits of one sort one after another, from the trees and
states that it keeps to. -/
structure EditsBy (edit : Tree P → Tree P → Prop) (holds : Tree P → σ → Prop)
    (visitor : Tree P → NodeId → Nat → σ → Signal × Tree P × σ) : Prop where
  edits {tree : Tree P} {state : σ} (id : NodeId) (depth : Nat) (now : holds tree state) :
    ReflTransGen edit tree (visitor tree id depth state).2.1
  keeps {tree : Tree P} {state : σ} (id : NodeId) (depth : Nat) (now : holds tree state) :
    holds (visitor tree id depth state).2.1 (visitor tree id depth state).2.2

/-! ## Visitors that change payloads and names -/

/-- An edit of a name or a payload. -/
inductive Relabels : Tree P → Tree P → Prop
  | rename (tree : Tree P) (id : NodeId) (name : String) : Relabels tree (tree.rename id name).1
  | updatePayload (tree : Tree P) (id : NodeId) (change : P → P) :
      Relabels tree (tree.updatePayload id change)

/-- The same nodes with the same children. -/
structure SameRows (tree other : Tree P) : Prop where
  contains (id : NodeId) : tree.contains id = other.contains id
  children (id : NodeId) : tree.children id = other.children id

namespace SameRows

variable {tree other third : Tree P}

theorem refl (tree : Tree P) : tree.SameRows tree := ⟨fun _ => rfl, fun _ => rfl⟩

theorem trans (h : tree.SameRows other) (h' : other.SameRows third) : tree.SameRows third where
  contains id := (h.contains id).trans (h'.contains id)
  children id := (h.children id).trans (h'.children id)

theorem update (tree : Tree P) (id : NodeId) {change : Node P → Node P}
    (hkeep : ∀ node, (change node).children = node.children) :
    (tree.update id change).SameRows tree where
  contains other := tree.contains_update id other change
  children other := tree.children_update id other change hkeep

theorem of_relabels (h : ReflTransGen Relabels tree other) : other.SameRows tree := by
  induction h with
  | refl => exact .refl tree
  | @tail before after _ edit ih =>
    apply SameRows.trans _ ih
    cases edit with
    | rename id name =>
      rw [Tree.rename]
      split
      · exact .update before id fun _ => rfl
      · exact .refl before
    | updatePayload id change => exact .update before id fun _ => rfl

end SameRows

theorem Tour.exists_trail {origin : Tree P} (h : origin.Linked) {holds : Tree P → σ → Prop}
    {visitor : Tree P → NodeId → Nat → σ → Signal × Tree P × σ}
    (hedits : EditsBy Relabels holds visitor) {depth : Nat} {ids : List NodeId}
    {here final : Tree P × σ} {calls : List Call} {ending : Ending}
    (htour : origin.Tour (aside visitor) depth ids here calls ending final)
    (hids : ∀ id ∈ ids, origin.contains id = true) (hholds : holds here.1 here.2)
    (hrows : here.1.SameRows origin) :
    ∃ notes, Trail visitor depth ids here calls.length notes ending final ∧
      notes.map (·.2) = calls ∧ ending ≠ .exhausted ∧ holds final.1 final.2 ∧
      final.1.SameRows origin := by
  have hcalled : ∀ {id depth} {here after : Tree P × σ} {signal}, holds here.1 here.2 →
      here.1.SameRows origin → aside visitor id depth here = (signal, after) →
      holds after.1 after.2 ∧ after.1.SameRows origin := by
    intro id depth here after signal hholds hrows hcall
    have hkeeps := hedits.keeps id depth hholds
    have hsame := SameRows.of_relabels (hedits.edits id depth hholds)
    rw [aside] at hcall
    rw [hcall] at hkeeps hsame
    exact ⟨hkeeps, hsame.trans hrows⟩
  have hheld : ∀ {here : Tree P × σ} {id}, here.1.SameRows origin → origin.contains id = true →
      here.1.contains id = true := fun hrows hid => (hrows.contains _).trans hid
  induction htour with
  | nil => exact ⟨[], .nil, rfl, by simp, hholds, hrows⟩
  | @stop depth id _ here _ call =>
    obtain ⟨hholds', hrows'⟩ := hcalled hholds hrows call
    have held := hheld hrows (hids id List.mem_cons_self)
    exact ⟨_, .stop held call, rfl, by simp, hholds', hrows'⟩
  | @skip depth id rest here _ _ _ _ call _ ih =>
    obtain ⟨hholds', hrows'⟩ := hcalled hholds hrows call
    have held := hheld hrows (hids id List.mem_cons_self)
    obtain ⟨notes, htrail, hnotes, hend, hfinal⟩ :=
      ih (fun other hother => hids other (List.mem_cons_of_mem _ hother)) hholds' hrows'
    exact ⟨_, .skip held call htrail, by simp [hnotes], hend, hfinal⟩
  | @stopBelow depth id rest here _ _ _ call _ ih =>
    obtain ⟨hholds', hrows'⟩ := hcalled hholds hrows call
    have held := hheld hrows (hids id List.mem_cons_self)
    obtain ⟨notes, htrail, hnotes, hend, hfinal⟩ :=
      ih (fun child hchild => h.contains_child hchild) hholds' hrows'
    rw [← hrows'.children] at htrail
    exact ⟨_, .endBelow held call htrail (by simp), by simp [hnotes], hend, hfinal⟩
  | @proceed depth id rest here _ _ _ below calls _ call _ _ ihdown ihright =>
    obtain ⟨hholds', hrows'⟩ := hcalled hholds hrows call
    have held := hheld hrows (hids id List.mem_cons_self)
    obtain ⟨notes, htrail, hnotes, _, hbetween, hrows''⟩ :=
      ihdown (fun child hchild => h.contains_child hchild) hholds' hrows'
    obtain ⟨notes', htrail', hnotes', hend, hfinal⟩ :=
      ihright (fun other hother => hids other (List.mem_cons_of_mem _ hother)) hbetween hrows''
    rw [← hrows'.children] at htrail
    refine ⟨(here.1, ⟨id, depth, .proceed⟩) :: (notes ++ notes'), ?_, by simp [hnotes, hnotes'], hend,
      hfinal⟩
    rw [List.length_cons, List.length_append]
    exact .proceed held call htrail htrail'

/-! ## Visitors that remove nodes -/

/-- An edit of a payload or a removal of nodes. -/
inductive Trims : Tree P → Tree P → Prop
  | updatePayload (tree : Tree P) (id : NodeId) (change : P → P) :
      Trims tree (tree.updatePayload id change)
  | detach (tree : Tree P) (id : NodeId) : Trims tree (tree.detach id).1
  | removeChild (tree : Tree P) (parent : NodeId) (name : String) :
      Trims tree (tree.removeChild parent name).1

/-- A later state of a tree that has only lost nodes: what is left was there before, every row in
its order. -/
structure Remains (later tree : Tree P) : Prop where
  contains {id : NodeId} (held : later.contains id = true) : tree.contains id = true
  sublist (id : NodeId) : (later.children id).Sublist (tree.children id)

namespace Remains

variable {tree later latest : Tree P}

theorem refl (tree : Tree P) : tree.Remains tree := ⟨fun held => held, fun _ => .refl _⟩

theorem trans (h : later.Remains tree) (h' : latest.Remains later) : latest.Remains tree where
  contains held := h.contains (h'.contains held)
  sublist id := (h'.sublist id).trans (h.sublist id)

theorem prune (h : tree.Linked) (id : NodeId) : (tree.prune id).Remains tree := by
  by_cases hid : tree.contains id = true
  swap
  · rw [prune_of_not_contains hid]
    exact .refl tree
  have hleft := h.contains_prune_iff hid
  refine ⟨fun held => ((hleft _).mp held).1, fun other => ?_⟩
  by_cases hother : (tree.prune id).contains other = true
  · rw [h.children_prune hid ((hleft other).mp hother).2]
    exact List.filter_sublist
  · rw [children_of_not_contains hother]
    exact List.nil_sublist _

theorem foldl_prune (h : tree.Linked) (doomed : List NodeId) (hroot : ∀ id ∈ doomed, id ≠ root) :
    (doomed.foldl Tree.prune tree).Remains tree := by
  induction doomed generalizing tree with
  | nil => exact .refl tree
  | cons id rest ih =>
    have hpruned := h.prune (hroot id List.mem_cons_self)
    have hrest := ih hpruned fun other hother => hroot other (List.mem_cons_of_mem _ hother)
    exact (prune h id).trans hrest

theorem of_edit (h : tree.Linked) (edit : Trims tree later) : later.Linked ∧ later.Remains tree := by
  cases edit with
  | updatePayload id change =>
    have hrows : (tree.updatePayload id change).SameRows tree := .update tree id fun _ => rfl
    refine ⟨h.updatePayload id change, fun held => ?_, fun other => ?_⟩
    · rwa [← hrows.contains]
    · rw [hrows.children]
  | detach id =>
    refine ⟨h.detach id, ?_⟩
    rw [Tree.detach]
    split
    · exact .refl tree
    · split
      · exact .prune h id
      · exact .refl tree
  | removeChild parent name =>
    refine ⟨h.removeChild parent name, foldl_prune h _ fun id hid => ?_⟩
    have hlink := (h.mem_children_iff parent id).mp (List.mem_of_mem_filter hid)
    exact h.ne_root_of_parent? hlink

theorem of_trims (h : tree.Linked) (edits : ReflTransGen Trims tree later) :
    later.Linked ∧ later.Remains tree := by
  induction edits with
  | refl => exact ⟨h, .refl tree⟩
  | tail _ edit ih =>
    obtain ⟨hlinked, hremains⟩ := of_edit ih.1 edit
    exact ⟨hlinked, ih.2.trans hremains⟩

end Remains

theorem Spans.sublist {tree : Tree P} {ids part : List NodeId} {forest : Forest (NodeId × Node P)}
    (hspan : tree.Spans ids forest) (hpart : part.Sublist ids) :
    ∃ forest', tree.Spans part forest' ∧ forest'.numbers.Sublist forest.numbers := by
  induction hpart generalizing forest with
  | slnil => exact ⟨forest, hspan, .refl _⟩
  | cons id _ ih =>
    cases hspan with
    | cons found down right =>
      obtain ⟨forest', hspan', hsub⟩ := ih right
      refine ⟨forest', hspan', hsub.trans ?_⟩
      simp
  | cons_cons id _ ih =>
    cases hspan with
    | cons found down right =>
      obtain ⟨forest', hspan', hsub⟩ := ih right
      refine ⟨_, .cons found down hspan', ?_⟩
      simpa using hsub

theorem Spans.exists_row {origin later : Tree P} (hremains : later.Remains origin) {id : NodeId}
    {node : Node P} {below : Forest (NodeId × Node P)} (found : origin.find? id = some node)
    (down : origin.Spans node.children below) :
    ∃ forest, origin.Spans (later.children id) forest ∧ forest.numbers.Sublist below.numbers ∧
      forest.size ≤ below.size := by
  have hrow := hremains.sublist id
  rw [children_of_find? found] at hrow
  obtain ⟨forest, hspan, hsub⟩ := down.sublist hrow
  have hle := hsub.length_le
  rw [Forest.length_numbers, Forest.length_numbers] at hle
  exact ⟨forest, hspan, hsub, hle⟩

theorem Trail.sublist_numbers {origin : Tree P} (holds : Tree P → σ → Prop)
    {visitor : Tree P → NodeId → Nat → σ → Signal × Tree P × σ}
    (hkeeps : ∀ {tree state} id depth, holds tree state →
      holds (visitor tree id depth state).2.1 (visitor tree id depth state).2.2)
    (hremains : ∀ {tree state}, holds tree state → tree.Remains origin) {depth : Nat}
    {ids : List NodeId} {here final : Tree P × σ} {turns : Nat} {calls : List (Tree P × Call)}
    {ending : Ending} (htrail : Trail visitor depth ids here turns calls ending final)
    {forest : Forest (NodeId × Node P)} (hspan : origin.Spans ids forest)
    (hholds : holds here.1 here.2) :
    (calls.map (·.2.node)).Sublist forest.numbers ∧ turns ≤ forest.size ∧
      (ending = .exhausted → turns < forest.size) ∧ holds final.1 final.2 := by
  have hcalled : ∀ {id depth} {here after : Tree P × σ} {signal}, holds here.1 here.2 →
      visitor here.1 id depth here.2 = (signal, after) → holds after.1 after.2 := by
    intro id depth here after signal hholds hcall
    have hafter := hkeeps id depth hholds
    rwa [hcall] at hafter
  induction htrail generalizing forest with
  | nil =>
    cases hspan
    simp [hholds]
  | leftOff =>
    cases hspan
    simp [Forest.size, hholds]
  | gone _ _ ih =>
    cases hspan with
    | cons _ _ right =>
      obtain ⟨hsub, hsize, hleft, hfinal⟩ := ih right hholds
      rw [Forest.size, Forest.numbers_cons]
      refine ⟨hsub.trans ?_, by omega, fun hend => ?_, hfinal⟩
      · simp
      · have hless := hleft hend
        omega
  | stop _ call =>
    cases hspan
    simp [Forest.size, hcalled hholds call]
  | skip _ call _ ih =>
    cases hspan with
    | cons _ _ right =>
      obtain ⟨hsub, hsize, hleft, hfinal⟩ := ih right (hcalled hholds call)
      rw [Forest.size, Forest.numbers_cons, List.map_cons]
      refine ⟨.cons_cons _ ?_, by omega, fun hend => ?_, hfinal⟩
      · exact hsub.trans (List.sublist_append_right _ _)
      · have hless := hleft hend
        omega
  | endBelow _ call _ _ ih =>
    cases hspan with
    | cons found down _ =>
      have hholds' := hcalled hholds call
      obtain ⟨row, hrow, hpart, hle⟩ := Spans.exists_row (hremains hholds') found down
      obtain ⟨hsub, hsize, hleft, hfinal⟩ := ih hrow hholds'
      rw [Forest.size, Forest.numbers_cons, List.map_cons]
      refine ⟨.cons_cons _ ?_, by omega, fun hend => ?_, hfinal⟩
      · exact (hsub.trans hpart).trans (List.sublist_append_left _ _)
      · have hless := hleft hend
        omega
  | proceed _ call _ _ ihdown ihright =>
    cases hspan with
    | cons found down right =>
      have hholds' := hcalled hholds call
      obtain ⟨row, hrow, hpart, hle⟩ := Spans.exists_row (hremains hholds') found down
      obtain ⟨hsub, hsize, _, hbetween⟩ := ihdown hrow hholds'
      obtain ⟨hsub', hsize', hleft, hfinal⟩ := ihright right hbetween
      rw [Forest.size, Forest.numbers_cons, List.map_cons, List.map_append]
      refine ⟨.cons_cons _ ?_, by omega, fun hend => ?_, hfinal⟩
      · exact (hsub.trans hpart).append hsub'
      · have hless := hleft hend
        omega

/-! ## Walks -/

section Walk

variable {tree : Tree P} {start : NodeId}
  {visitor : Tree P → NodeId → Nat → σ → Signal × Tree P × σ} {state : σ} {final : Tree P × σ}
  {turns : Nat} {calls : List (Tree P × Call)} {ending : Ending}

/-- A walk that changes only payloads and names makes the calls of a walk through the tree as it
was. -/
theorem Linked.revise_eq_walk (h : tree.Linked) {holds : Tree P → σ → Prop}
    (hedits : EditsBy Relabels holds visitor) (hholds : holds tree state) {budget : Nat}
    (hbudget : tree.bound ≤ budget) :
    tree.revise budget start visitor state = tree.walk start (aside visitor) (tree, state) ∧
      (tree.notes budget start visitor state).map (·.2) =
        (tree.walk start (logged (aside visitor)) ((tree, state), [])).2.2 := by
  by_cases hstart : tree.contains start = true
  · obtain ⟨node, hnode⟩ := contains_iff.mp hstart
    have hspan := h.spans_singleton hnode
    have hsize := h.size_le_bound hspan (apart_singleton tree start)
    have hids : ∀ id ∈ [start], tree.contains id = true := by simpa using hstart
    obtain ⟨calls, ending, final, htour, hlength⟩ := hspan.exists_tour (aside visitor) 0 (tree, state)
    obtain ⟨notes, htrail, hnotes, hend, _⟩ := htour.exists_trail h hedits hids hholds (.refl tree)
    have hroom : calls.length ≤ tree.bound := Nat.le_trans hlength hsize
    have hroom' : calls.length ≤ budget := Nat.le_trans hroom hbudget
    have hleft : ending = .exhausted → calls.length = budget := fun hend' => absurd hend' hend
    have hwalk : tree.walk start (aside visitor) (tree, state) = (ending, final) :=
      htour.walkOver_row h hids hroom
    have hlog : tree.walk start (logged (aside visitor)) ((tree, state), []) =
        (ending, final, calls) := (htour.log []).walkOver_row h hids hroom
    rw [htrail.revise_eq hroom' hleft, htrail.notes_eq hroom' hleft, hnotes, hwalk, hlog]
    exact ⟨rfl, rfl⟩
  · have htrail : Trail visitor 0 [start] (tree, state) 1 [] .finished (tree, state) :=
      .gone hstart .nil
    have hroom : 0 < tree.bound := lt_bound_of_contains h.contains_root
    have hroom' : 1 ≤ budget := Nat.le_trans hroom hbudget
    have hpassed : ∀ {ρ : Type (max u v)} (caller : NodeId → Nat → ρ → Signal × ρ) (begin : ρ),
        tree.walk start caller begin = (.finished, begin) := by
      intro ρ caller begin
      obtain ⟨room, hbound⟩ := Nat.exists_eq_add_of_lt hroom
      rw [walk, hbound, Nat.zero_add]
      cases room <;> simp [walkOver, hstart]
    rw [htrail.revise_eq hroom' (by simp),
      htrail.notes_eq hroom' (by simp), hpassed, hpassed]
    exact ⟨rfl, rfl⟩

/-- A walk that only removes nodes takes no more turns than there are slots, and calls on different
nodes. -/
theorem Linked.turns_lt_bound (h : tree.Linked) {holds : Tree P → σ → Prop}
    (hedits : EditsBy Trims holds visitor) (hholds : holds tree state)
    (htrail : Trail visitor 0 [start] (tree, state) turns calls ending final) :
    (ending = .exhausted → turns < tree.bound) ∧ (calls.map (·.2.node)).Nodup := by
  by_cases hstart : tree.contains start = true
  · obtain ⟨node, hnode⟩ := contains_iff.mp hstart
    have hspan := h.spans_singleton hnode
    have hsize := h.size_le_bound hspan (apart_singleton tree start)
    have hkeeps : ∀ {later : Tree P} {state : σ} id depth,
        holds later state ∧ later.Linked ∧ later.Remains tree →
        holds (visitor later id depth state).2.1 (visitor later id depth state).2.2 ∧
          (visitor later id depth state).2.1.Linked ∧
          (visitor later id depth state).2.1.Remains tree := by
      rintro later state id depth ⟨hholds, hlinked, hremains⟩
      obtain ⟨hlinked', hremains'⟩ := Remains.of_trims hlinked (hedits.edits id depth hholds)
      exact ⟨hedits.keeps id depth hholds, hlinked', hremains.trans hremains'⟩
    obtain ⟨hsub, _, hleft, _⟩ := htrail.sublist_numbers
      (fun later state => holds later state ∧ later.Linked ∧ later.Remains tree) hkeeps
      (fun hnow => hnow.2.2) hspan ⟨hholds, h, .refl tree⟩
    exact ⟨fun hend => Nat.lt_of_lt_of_le (hleft hend) hsize,
      hsub.nodup (h.nodup_numbers hspan (apart_singleton tree start))⟩
  · have hbound : 0 < tree.bound := lt_bound_of_contains h.contains_root
    cases htrail with
    | leftOff => exact ⟨fun _ => hbound, List.nodup_nil⟩
    | gone _ right =>
      cases right
      exact ⟨Ending.noConfusion, List.nodup_nil⟩
    | stop held _ => exact absurd held hstart
    | skip held _ _ => exact absurd held hstart
    | endBelow held _ _ _ => exact absurd held hstart
    | proceed held _ _ _ => exact absurd held hstart

end Walk

/-- A walk whose visitor may change the tree takes, for any number of turns, the turns of the walk by
recursion, makes the same calls on the same trees and leaves the same tree. When only payloads and
names are changed these are the calls of a walk through the tree as it was. When payloads are changed
and nodes removed the walk ends, and its calls come to nodes that are in the tree, once to each. -/
theorem revise_eq_trail {good : P → Prop} {tree : Tree P} (hreach : Reachable good tree)
    (start : NodeId) (visitor : Tree P → NodeId → Nat → σ → Signal × Tree P × σ) (state : σ) :
    (∀ budget, ∃ turns calls ending final,
      Trail visitor 0 [start] (tree, state) turns calls ending final ∧
      turns ≤ budget ∧ (ending = .exhausted → turns = budget)) ∧
    (∀ turns calls ending final, Trail visitor 0 [start] (tree, state) turns calls ending final →
      ∀ budget, turns ≤ budget → (ending = .exhausted → turns = budget) →
        tree.revise budget start visitor state = (ending, final) ∧
        tree.notes budget start visitor state = calls) ∧
    (∀ holds, EditsBy Relabels holds visitor → holds tree state → ∀ budget, tree.bound ≤ budget →
      tree.revise budget start visitor state = tree.walk start (aside visitor) (tree, state) ∧
      (tree.notes budget start visitor state).map (·.2) =
        (tree.walk start (logged (aside visitor)) ((tree, state), [])).2.2) ∧
    ∀ holds, EditsBy Trims holds visitor → holds tree state →
      (∀ budget, tree.bound ≤ budget →
        (tree.revise budget start visitor state).1 ≠ .exhausted) ∧
      ∀ budget,
        (∀ call ∈ tree.notes budget start visitor state, call.1.contains call.2.node = true) ∧
        ((tree.notes budget start visitor state).map (·.2.node)).Nodup := by
  have h := hreach.linked
  refine ⟨fun budget => exists_trail visitor budget 0 [start] (tree, state), ?_, ?_, ?_⟩
  · intro turns calls ending final htrail budget hroom hleft
    exact ⟨htrail.revise_eq hroom hleft, htrail.notes_eq hroom hleft⟩
  · intro holds hedits hholds budget hbudget
    exact h.revise_eq_walk hedits hholds hbudget
  · intro holds hedits hholds
    constructor
    · intro budget hbudget hend
      obtain ⟨turns, calls, ending, final, htrail, hroom, hleft⟩ :=
        exists_trail visitor budget 0 [start] (tree, state)
      rw [htrail.revise_eq hroom hleft] at hend
      have hless := (h.turns_lt_bound hedits hholds htrail).1 hend
      have hspent := hleft hend
      omega
    · intro budget
      obtain ⟨turns, calls, ending, final, htrail, hroom, hleft⟩ :=
        exists_trail visitor budget 0 [start] (tree, state)
      rw [htrail.notes_eq hroom hleft]
      exact ⟨htrail.contains_of_mem, (h.turns_lt_bound hedits hholds htrail).2⟩

private def orchard : Tree Nat :=
  ofOutline ⟨⟨some "orchard", 0⟩,
    .cons ⟨some "pears", 1⟩
      (.cons ⟨some "young", 2⟩ .nil (.cons ⟨some "dead", 3⟩ (.cons ⟨some "stump", 4⟩ .nil .nil) .nil))
      (.cons ⟨some "plums", 5⟩ (.cons ⟨some "old", 6⟩ .nil .nil) .nil)⟩

/-- Fells what is dead in a row, and after the pears gives the plums away. -/
private def fell (tree : Tree Nat) (id : NodeId) (_depth : Nat) (felled : Nat) :
    Signal × Tree Nat × Nat :=
  let (left, count) := tree.removeChild id "dead"
  (.proceed, if id = 1 then (left.detach 5).1 else left, felled + count)

/-- The orchard after two calls of that visitor. -/
private def felled : Tree Nat := ((orchard.removeChild 1 "dead").1.detach 5).1

/-- Renames what it sees and leaves out what is below the pears. -/
private def survey (tree : Tree Nat) (id : NodeId) (depth : Nat) (seen : Nat) :
    Signal × Tree Nat × Nat :=
  (if id = 1 then .skip else .proceed, ((tree.updatePayload id (· + depth)).rename id "seen").1,
    seen + 1)

theorem revise_eq_trail_orchard :
    Reachable (fun _ => True) orchard ∧ EditsBy Trims (fun _ _ => True) fell ∧
    EditsBy Relabels (fun _ _ => True) survey ∧
    (∃ turns, Trail fell 0 [root] (orchard, 0) turns
      [(orchard, ⟨0, 0, .proceed⟩), (orchard, ⟨1, 1, .proceed⟩), (felled, ⟨2, 2, .proceed⟩)] .finished
      (felled, 1)) ∧
    orchard.revise 8 root fell 0 = (.finished, felled, 1) ∧
    (orchard.revise 8 root fell 0).1 ≠ .exhausted ∧
    orchard.revise 8 root survey 0 = orchard.walk root (aside survey) (orchard, 0) := by
  have hreach : Reachable (fun _ => True) orchard :=
    reachable_ofOutline _ trivial fun _ _ => trivial
  have hfell : EditsBy Trims (fun _ _ => True) fell := by
    refine ⟨fun {tree _} id _ _ => ?_, fun _ _ _ => trivial⟩
    have hremoved := ReflTransGen.single (Trims.removeChild tree id "dead")
    by_cases hid : id = 1
    · simp only [fell, hid, if_true] at hremoved ⊢
      exact hremoved.tail (.detach _ 5)
    · simpa only [fell, hid, if_false] using hremoved
  have hsurvey : EditsBy Relabels (fun _ _ => True) survey := by
    refine ⟨fun {tree _} id depth _ => ?_, fun _ _ _ => trivial⟩
    exact (ReflTransGen.single (.updatePayload tree id _)).tail (.rename _ id "seen")
  obtain ⟨hexists, htrails, _, htrims⟩ := revise_eq_trail hreach root fell 0
  obtain ⟨_, _, hrelabels, _⟩ := revise_eq_trail hreach root survey 0
  obtain ⟨turns, calls, ending, final, htrail, hroom, hleft⟩ := hexists 8
  obtain ⟨hrevise, hnotes⟩ := htrails turns calls ending final htrail 8 hroom hleft
  have hseen : orchard.revise 8 root fell 0 = (.finished, felled, 1) := rfl
  have hheard : orchard.notes 8 root fell 0 =
      [(orchard, ⟨0, 0, .proceed⟩), (orchard, ⟨1, 1, .proceed⟩), (felled, ⟨2, 2, .proceed⟩)] := rfl
  rw [hseen] at hrevise
  rw [hheard] at hnotes
  cases hrevise
  cases hnotes
  exact ⟨hreach, hfell, hsurvey, ⟨turns, htrail⟩, hseen, (htrims _ hfell trivial).1 8 (by decide),
    (hrelabels _ hsurvey trivial 8 (by decide)).1⟩

end Tree

end Conform
