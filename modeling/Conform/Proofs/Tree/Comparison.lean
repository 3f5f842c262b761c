import Mathlib.Data.List.Forall2
import Mathlib.Data.Set.Function
import Conform.Proofs.Tree.Sizes
import Conform.Tree.Compare
/-!
# Comparison of two trees

Two trees are compared node by node from their roots downward, each node with
the one at the same ranks in the other tree. As long as nothing differs, every
node has such a counterpart, and the counterparts are a matching of the two
trees. A matching in turn can only lead from nodes to their counterparts, so
that where there is one the comparison has nothing to find.
-/

namespace Conform.Tree

universe u

variable {P : Type u} {tree other : Tree P} {agree : P → P → Bool}

/-- The nodes at the same ranks below the two roots. -/
inductive Counterpart (tree other : Tree P) : NodeId → NodeId → Prop
  | root : Counterpart tree other Tree.root Tree.root
  | child {id mate child childMate : NodeId} {rank : Nat} (above : Counterpart tree other id mate)
      (listed : (tree.children id)[rank]? = some child)
      (listed' : (other.children mate)[rank]? = some childMate) :
      Counterpart tree other child childMate

/-- Two nodes are held, and their payloads agree. -/
def PayloadsAgree (agree : P → P → Bool) (tree other : Tree P) (id mate : NodeId) : Prop :=
  ∃ payload payload', tree.payload? id = some payload ∧ other.payload? mate = some payload' ∧
    agree payload payload' = true

/-- Two nodes between which nothing differs. -/
structure Alike (agree : P → P → Bool) (tree other : Tree P) (id mate : NodeId) : Prop where
  names : tree.name? id = other.name? mate
  payloads : PayloadsAgree agree tree other id mate
  childCounts : (tree.children id).length = (other.children mate).length

/-- What differs between two nodes when names are compared first and child counts last. -/
def DiffersIn (agree : P → P → Bool) (tree other : Tree P) (id mate : NodeId) : Aspect → Prop
  | .names => tree.name? id ≠ other.name? mate
  | .payloads => tree.name? id = other.name? mate ∧ ¬PayloadsAgree agree tree other id mate
  | .childCounts => tree.name? id = other.name? mate ∧ PayloadsAgree agree tree other id mate ∧
      (tree.children id).length ≠ (other.children mate).length

theorem Alike.not_differsIn {id mate : NodeId} (h : Alike agree tree other id mate)
    (aspect : Aspect) : ¬DiffersIn agree tree other id mate aspect := by
  cases aspect with
  | names => exact fun hdiffers => hdiffers h.names
  | payloads => exact fun hdiffers => hdiffers.2 h.payloads
  | childCounts => exact fun hdiffers => hdiffers.2.2 h.childCounts

/-! ## Counterparts -/

namespace Counterpart

theorem symm {id mate : NodeId} (h : tree.Counterpart other id mate) :
    other.Counterpart tree mate id := by
  induction h with
  | root => exact .root
  | child _ listed listed' ih => exact .child ih listed' listed

theorem contains (htree : tree.Linked) {id mate : NodeId} (h : tree.Counterpart other id mate) :
    tree.contains id = true := by
  cases h with
  | root => exact htree.contains_root
  | child _ listed _ => exact htree.contains_child (List.mem_of_getElem? listed)

/-- A node has one counterpart, for it has one parent and one rank among the children there. -/
theorem unique (htree : tree.Linked) {id mate found : NodeId} (h : tree.Counterpart other id mate)
    (hfound : tree.Counterpart other id found) : found = mate := by
  induction h generalizing found with
  | root =>
    cases hfound with
    | root => rfl
    | child _ listed _ =>
      have hlink := (htree.mem_children_iff _ _).mp (List.mem_of_getElem? listed)
      exact absurd rfl (htree.ne_root_of_parent? hlink)
  | @child id mate child childMate rank _ listed listed' ih =>
    have hlink := (htree.mem_children_iff _ _).mp (List.mem_of_getElem? listed)
    cases hfound with
    | root => exact absurd rfl (htree.ne_root_of_parent? hlink)
    | @child id' mate' _ _ rank' above' again again' =>
      have hlink' := (htree.mem_children_iff _ _).mp (List.mem_of_getElem? again)
      have hsame : id' = id := Option.some_inj.mp (hlink'.symm.trans hlink)
      subst hsame
      have hmate : mate' = mate := ih above'
      have hlt : rank < (tree.children id').length := (List.getElem?_eq_some_iff.mp listed).1
      have hrank : rank = rank' :=
        (List.getElem?_inj hlt (htree.nodup_children id')).mp (listed.trans again.symm)
      rw [hmate, ← hrank, listed'] at again'
      exact (Option.some_inj.mp again').symm

theorem injective (hother : other.Linked) {id id' mate : NodeId}
    (h : tree.Counterpart other id mate) (h' : tree.Counterpart other id' mate) : id' = id :=
  h.symm.unique hother h'.symm

theorem children {id mate : NodeId} (h : tree.Counterpart other id mate)
    (hcounts : (tree.children id).length = (other.children mate).length) :
    List.Forall₂ (tree.Counterpart other) (tree.children id) (other.children mate) := by
  rw [List.forall₂_iff_get]
  refine ⟨hcounts, fun rank hrank hrank' => ?_⟩
  exact .child h (List.getElem?_eq_getElem hrank) (List.getElem?_eq_getElem hrank')

end Counterpart

/-! ## The search -/

/-- What a search through nodes one after another finds: the first that differs from its
counterpart, or nothing when all are like theirs. -/
inductive Searched (agree : P → P → Bool) (tree other : Tree P) :
    List NodeId → Option (Aspect × NodeId) → Prop
  | nil : Searched agree tree other [] none
  | differs {id mate : NodeId} {aspect : Aspect} (counterpart : tree.Counterpart other id mate)
      (differs : DiffersIn agree tree other id mate aspect) (rest : List NodeId) :
      Searched agree tree other (id :: rest) (some (aspect, id))
  | alike {id mate : NodeId} {rest : List NodeId} {found : Option (Aspect × NodeId)}
      (counterpart : tree.Counterpart other id mate) (alike : Alike agree tree other id mate)
      (later : Searched agree tree other rest found) :
      Searched agree tree other (id :: rest) found

namespace Searched

theorem append_of_none {ids rest : List NodeId} {found : Option (Aspect × NodeId)}
    (h : Searched agree tree other ids none) (hrest : Searched agree tree other rest found) :
    Searched agree tree other (ids ++ rest) found := by
  induction ids with
  | nil => exact hrest
  | cons id ids ih =>
    cases h with
    | alike counterpart alike later => exact .alike counterpart alike (ih later)

theorem append_of_some {ids : List NodeId} {found : Aspect × NodeId}
    (h : Searched agree tree other ids (some found)) (rest : List NodeId) :
    Searched agree tree other (ids ++ rest) (some found) := by
  induction ids with
  | nil => cases h
  | cons id ids ih =>
    cases h with
    | differs counterpart differs => exact .differs counterpart differs _
    | alike counterpart alike later => exact .alike counterpart alike (ih later)

theorem exists_alike {ids : List NodeId} (h : Searched agree tree other ids none) {id : NodeId}
    (hid : id ∈ ids) : ∃ mate, tree.Counterpart other id mate ∧ Alike agree tree other id mate := by
  induction ids with
  | nil => cases hid
  | cons first rest ih =>
    cases h with
    | alike counterpart alike later =>
      rcases List.mem_cons.mp hid with rfl | hid
      · exact ⟨_, counterpart, alike⟩
      · exact ih later hid

theorem exists_first {ids : List NodeId} {aspect : Aspect} {id : NodeId}
    (h : Searched agree tree other ids (some (aspect, id))) :
    ∃ before after mate, ids = before ++ id :: after ∧ tree.Counterpart other id mate ∧
      DiffersIn agree tree other id mate aspect ∧
      ∀ earlier ∈ before, ∃ found, tree.Counterpart other earlier found ∧
        Alike agree tree other earlier found := by
  induction ids with
  | nil => cases h
  | cons first rest ih =>
    cases h with
    | differs counterpart differs =>
      exact ⟨[], rest, _, rfl, counterpart, differs, fun _ hearlier => nomatch hearlier⟩
    | alike counterpart alike later =>
      obtain ⟨before, after, mate, rfl, hmate, hdiffers, hbefore⟩ := ih later
      refine ⟨first :: before, after, mate, rfl, hmate, hdiffers, fun earlier hearlier => ?_⟩
      rcases List.mem_cons.mp hearlier with rfl | hearlier
      · exact ⟨_, counterpart, alike⟩
      · exact hbefore earlier hearlier

end Searched

theorem payloadsAgree_iff (agree : P → P → Bool) {id mate : NodeId} {node node' : Node P}
    (hnode : tree.find? id = some node) (hnode' : other.find? mate = some node') :
    PayloadsAgree agree tree other id mate ↔ agree node.payload node'.payload = true := by
  simp [PayloadsAgree, payload?, hnode, hnode']

theorem Spans.searched_difference? (agree : P → P → Bool) {ids mates : List NodeId}
    {forest forest' : Forest (NodeId × Node P)} (h : tree.Spans ids forest)
    (h' : other.Spans mates forest') (hmates : List.Forall₂ (tree.Counterpart other) ids mates) :
    Searched agree tree other forest.numbers (forest.difference? agree forest') := by
  induction h generalizing mates forest' with
  | nil =>
    cases hmates
    cases h'
    exact .nil
  | @cons id node rest below others found down right ihdown ihright =>
    cases hmates with
    | @cons _ mate _ _ counterpart hrest =>
    cases h' with
    | @cons _ node' _ below' others' found' down' right' =>
      have hnames : tree.name? id = other.name? mate ↔ node.name? = node'.name? := by
        simp [name?, found, found']
      have hpayloads := payloadsAgree_iff agree found found'
      have hchildren := children_of_find? found
      have hchildren' := children_of_find? found'
      rw [Forest.numbers_cons, Forest.difference?]
      split
      · next hdiffers =>
        have hnot : DiffersIn agree tree other id mate .names := by
          simpa [DiffersIn, hnames] using hdiffers
        exact .differs counterpart hnot _
      split
      · next hname hdiffers =>
        have hnot : DiffersIn agree tree other id mate .payloads := by
          simpa [DiffersIn, hnames, hpayloads] using And.intro hname hdiffers
        exact .differs counterpart hnot _
      split
      · next hname hpayload hdiffers =>
        have hnot : DiffersIn agree tree other id mate .childCounts := by
          simpa [DiffersIn, hnames, hpayloads, hchildren, hchildren'] using
            And.intro hname (And.intro hpayload hdiffers)
        exact .differs counterpart hnot _
      · next hname hpayload hcounts =>
        have halike : Alike agree tree other id mate :=
          ⟨by simpa [hnames] using hname, by simpa [hpayloads] using hpayload,
            by simpa [hchildren, hchildren'] using hcounts⟩
        have hrow := counterpart.children halike.childCounts
        rw [hchildren, hchildren'] at hrow
        have hbelow := ihdown down' hrow
        refine .alike counterpart halike ?_
        cases hfound : below.difference? agree below' with
        | some found =>
          rw [hfound] at hbelow
          exact hbelow.append_of_some _
        | none =>
          rw [hfound] at hbelow
          exact hbelow.append_of_none (ihright right' hrest)

/-- The comparison of two trees is a search through all nodes of the first in pre-order. -/
theorem Linked.searched_difference? (htree : tree.Linked) (hother : other.Linked)
    (agree : P → P → Bool) :
    Searched agree tree other (tree.descendants root)
      ((tree.branches [root]).difference? agree (other.branches [root])) := by
  obtain ⟨node, hnode⟩ := contains_iff.mp htree.contains_root
  obtain ⟨node', hnode'⟩ := contains_iff.mp hother.contains_root
  have hspan := htree.spans_singleton hnode
  have hspan' := hother.spans_singleton hnode'
  have hapart := apart_singleton tree root
  rw [hspan.descendants_eq (htree.size_le_bound hspan hapart), htree.branches_eq hspan hapart,
    hother.branches_eq hspan' (apart_singleton other root)]
  exact hspan.searched_difference? agree hspan' (.cons .root .nil)

/-! ## Matchings -/

/-- A one-to-one map from the nodes of a tree to those of another that keeps the root, all names and
the children in their order, and under which payloads agree. -/
structure Matching (agree : P → P → Bool) (tree other : Tree P) (mate : NodeId → NodeId) :
    Prop where
  bijOn : Set.BijOn mate {id | tree.contains id = true} {id | other.contains id = true}
  root : mate root = root
  names {id : NodeId} (held : tree.contains id = true) : tree.name? id = other.name? (mate id)
  payloads {id : NodeId} (held : tree.contains id = true) :
    PayloadsAgree agree tree other id (mate id)
  children {id : NodeId} (held : tree.contains id = true) :
    other.children (mate id) = (tree.children id).map mate

namespace Matching

variable {mate : NodeId → NodeId}

theorem alike (h : Matching agree tree other mate) {id : NodeId}
    (hid : tree.contains id = true) : Alike agree tree other id (mate id) :=
  ⟨h.names hid, h.payloads hid, by rw [h.children hid, List.length_map]⟩

theorem eq_of_counterpart (h : Matching agree tree other mate) {id found : NodeId}
    (hfound : tree.Counterpart other id found) : mate id = found := by
  induction hfound with
  | root => exact h.root
  | child _ listed listed' ih =>
    have hheld := contains_of_mem_children (List.mem_of_getElem? listed)
    rw [← ih, h.children hheld, List.getElem?_map, listed] at listed'
    exact Option.some_inj.mp listed'

end Matching

/-- Where every node is like its counterpart, every node of the other tree is one. -/
theorem Linked.exists_counterpart (hother : other.Linked)
    (halike : ∀ {id mate}, tree.Counterpart other id mate → Alike agree tree other id mate)
    {mate : NodeId} (hmate : other.contains mate = true) :
    ∃ id, tree.Counterpart other id mate := by
  refine hother.up_induction (motive := fun mate => ∃ id, tree.Counterpart other id mate)
    ⟨root, .root⟩ ?_ hmate
  rintro mate parent hlink ⟨id, hid⟩
  obtain ⟨rank, hrank, rfl⟩ := List.mem_iff_getElem.mp ((hother.mem_children_iff _ _).mpr hlink)
  have hrank' : rank < (tree.children id).length := (halike hid).childCounts ▸ hrank
  exact ⟨_, .child hid (List.getElem?_eq_getElem hrank') (List.getElem?_eq_getElem hrank)⟩

theorem Linked.matching (htree : tree.Linked) (hother : other.Linked) {mate : NodeId → NodeId}
    (hmate : ∀ {id}, tree.contains id = true → tree.Counterpart other id (mate id))
    (halike : ∀ {id}, tree.contains id = true → Alike agree tree other id (mate id)) :
    Matching agree tree other mate := by
  have heq : ∀ {id found}, tree.Counterpart other id found → mate id = found := fun hfound =>
    hfound.unique htree (hmate (hfound.contains htree))
  have hall : ∀ {id found}, tree.Counterpart other id found →
      Alike agree tree other id found := fun hfound =>
    heq hfound ▸ halike (hfound.contains htree)
  refine ⟨⟨?_, ?_, ?_⟩, heq .root, fun hid => (halike hid).names, fun hid => (halike hid).payloads,
    ?_⟩
  · intro id hid
    exact (hmate hid).symm.contains hother
  · intro id hid id' hid' hsame
    have hpair := hmate hid'
    rw [← hsame] at hpair
    exact hpair.injective hother (hmate hid)
  · intro found hfound
    obtain ⟨id, hid⟩ := hother.exists_counterpart hall hfound
    exact ⟨id, hid.contains htree, heq hid⟩
  · intro id hid
    have hrow := (hmate hid).children (halike hid).childCounts
    rw [← List.forall₂_eq_eq_eq, List.forall₂_map_right_iff]
    exact hrow.flip.imp fun _ _ hpair => (heq hpair).symm

theorem Linked.exists_matching (htree : tree.Linked) (hother : other.Linked)
    (hall : ∀ id, tree.contains id = true →
      ∃ mate, tree.Counterpart other id mate ∧ Alike agree tree other id mate) :
    ∃ mate, Matching agree tree other mate := by
  have hmates : ∀ id, ∃ mate, tree.contains id = true →
      tree.Counterpart other id mate ∧ Alike agree tree other id mate := by
    intro id
    by_cases hid : tree.contains id = true
    · obtain ⟨mate, hmate⟩ := hall id hid
      exact ⟨mate, fun _ => hmate⟩
    · exact ⟨root, fun hid' => absurd hid' hid⟩
  choose mate hmate using hmates
  exact ⟨mate, htree.matching hother (fun hid => (hmate _ hid).1) fun hid => (hmate _ hid).2⟩

/-- Two trees are found to be the same exactly when there is a matching of their nodes. What is
reported otherwise is the path of the first node in pre-order that differs from the node at the same
ranks in the other tree, and in what: names are looked at before payloads and payloads before the
numbers of children. -/
theorem first_difference {good good' : P → Prop} (hreach : Reachable good tree)
    (hreach' : Reachable good' other) (agree : P → P → Bool) :
    (tree.difference? agree other = none ↔ ∃ mate, Matching agree tree other mate) ∧
    ∀ aspect path, tree.difference? agree other = some (aspect, path) →
      ∃ before id after mate, tree.descendants root = before ++ id :: after ∧
        path = tree.path id ∧ (∀ found, tree.Counterpart other id found ↔ found = mate) ∧
        DiffersIn agree tree other id mate aspect ∧
        ∀ earlier ∈ before, ∃ found, tree.Counterpart other earlier found ∧
          Alike agree tree other earlier found := by
  have htree := hreach.linked
  have hother := hreach'.linked
  have hsearched := htree.searched_difference? hother agree
  rw [difference?]
  generalize (tree.branches [root]).difference? agree (other.branches [root]) = found at hsearched
  refine ⟨?_, fun aspect path hfound => ?_⟩
  · rw [Option.map_eq_none_iff]
    constructor
    · rintro rfl
      refine htree.exists_matching hother fun id hid => hsearched.exists_alike ?_
      exact (htree.mem_descendants_iff htree.contains_root id).mpr ⟨hid, htree.root_isAbove hid⟩
    · rintro ⟨mate, hmatching⟩
      cases found with
      | none => rfl
      | some found =>
        obtain ⟨aspect, id⟩ := found
        obtain ⟨_, _, found, _, hfound, hdiffers, _⟩ := hsearched.exists_first
        have halike := hmatching.alike (hfound.contains htree)
        rw [hmatching.eq_of_counterpart hfound] at halike
        exact absurd hdiffers (halike.not_differsIn aspect)
  · obtain ⟨⟨aspect', id⟩, rfl, heq⟩ := Option.map_eq_some_iff.mp hfound
    cases heq
    obtain ⟨before, after, mate, hids, hmate, hdiffers, hbefore⟩ := hsearched.exists_first
    refine ⟨before, id, after, mate, hids, rfl, fun found => ⟨hmate.unique htree, ?_⟩, hdiffers,
      hbefore⟩
    rintro rfl
    exact hmate

private def score : Tree Nat :=
  ofOutline ⟨⟨some "score", 0⟩,
    .cons ⟨some "strings", 1⟩ (.cons ⟨some "viola", 2⟩ .nil .nil)
      (.cons ⟨some "winds", 3⟩ (.cons ⟨some "oboe", 4⟩ .nil .nil) .nil)⟩

/-- The same labels, with the winds made first and moved behind the strings. -/
private def rescored : Tree Nat :=
  ((((((single ⟨some "score", 0⟩).addChild root "winds" 3).1.addChild 1 "oboe" 4).1.addChild root
    "strings" 1).1.addChild 3 "viola" 2).1.moveNode 1 root).1

theorem first_difference_score :
    Reachable (fun _ => True) score ∧ Reachable (fun _ => True) rescored ∧
    score.children root = [1, 3] ∧ rescored.children root = [3, 1] ∧
    (∃ mate, Matching (· == ·) score rescored mate) ∧
    ∃ changed, changed = rescored.updatePayload 2 (· + 1) ∧ Reachable (fun _ => True) changed ∧
      score.difference? (· == ·) changed = some (.payloads, ⟨["score", "winds", "oboe"]⟩) ∧
      ∃ before id after mate, score.descendants root = before ++ id :: after ∧
        score.path id = ⟨["score", "winds", "oboe"]⟩ ∧ score.Counterpart changed id mate ∧
        DiffersIn (· == ·) score changed id mate .payloads := by
  have hscore : Reachable (fun _ => True) score := reachable_ofOutline _ trivial fun _ _ => trivial
  have hrescored : Reachable (fun _ => True) rescored :=
    .edited (.edited (.edited (.edited (.edited (.single trivial) (.addChild _ _ _ trivial))
      (.addChild _ _ _ trivial)) (.addChild _ _ _ trivial)) (.addChild _ _ _ trivial))
      (.moveNode _ _ _)
  have hchanged : Reachable (fun _ => True) (rescored.updatePayload 2 (· + 1)) :=
    .edited hrescored (.updatePayload _ _ fun _ _ => trivial)
  have hfound : score.difference? (· == ·) (rescored.updatePayload 2 (· + 1)) =
      some (.payloads, ⟨["score", "winds", "oboe"]⟩) := rfl
  obtain ⟨before, id, after, mate, hids, hpath, hmate, hdiffers, _⟩ :=
    (first_difference hscore hchanged (· == ·)).2 _ _ hfound
  exact ⟨hscore, hrescored, rfl, rfl, (first_difference hscore hrescored (· == ·)).1.mp rfl, _, rfl,
    hchanged, hfound, before, id, after, mate, hids, hpath.symm, (hmate mate).mpr rfl, hdiffers⟩

end Conform.Tree
