import Conform.Proofs.Tree.Sizes
import Conform.Proofs.Tree.Tours
/-!
# Loops without a guard

Paths, walks up and walks down are read off a tree by loops that keep no count
of their rounds and no record of the nodes they have seen. They come to an end
because the links of a tree are in order: no node comes twice on a way up or
among what a node spans, so that a loop makes no more rounds than the tree has
nodes. What they give is what the functions with a bound on their steps give.
A subtree is moved to another tree by recursion, which goes down no further
than the tree has nodes.
-/

namespace Conform

universe u v w

/-! ## Loops -/

/-- What one more turn of a loop comes to. -/
inductive Turn (σ : Type u) (ρ : Type v) where
  /-- The loop is over before another round. -/
  | ended (result : ρ)
  /-- The loop is left in the middle of a round. -/
  | leave (result : ρ)
  /-- The loop goes on after a round. -/
  | next (state : σ)

/-- A loop that comes to a result, with the number of its rounds. -/
inductive Looped {σ : Type u} {ρ : Type v} (turn : σ → Turn σ ρ) : σ → Nat → ρ → Prop
  | ended {state : σ} {result : ρ} (turned : turn state = .ended result) :
      Looped turn state 0 result
  | leave {state : σ} {result : ρ} (turned : turn state = .leave result) :
      Looped turn state 1 result
  | next {state after : σ} {rounds : Nat} {result : ρ} (turned : turn state = .next after)
      (later : Looped turn after rounds result) : Looped turn state (rounds + 1) result

/-- A loop ends with a result after so many rounds at most, and in no other way. -/
def Ends {σ : Type u} {ρ : Type v} (turn : σ → Turn σ ρ) (start : σ) (most : Nat) (result : ρ) :
    Prop :=
  ∃ rounds ≤ most, ∀ count answer, Looped turn start count answer ↔ count = rounds ∧ answer = result

namespace Looped

variable {σ : Type u} {ρ : Type v} {turn : σ → Turn σ ρ} {state : σ} {rounds : Nat} {result : ρ}

theorem unique (h : Looped turn state rounds result) {count : Nat} {answer : ρ}
    (hother : Looped turn state count answer) : count = rounds ∧ answer = result := by
  induction h generalizing count with
  | ended turned =>
    cases hother with
    | ended turned' => rw [turned] at turned'; cases turned'; exact ⟨rfl, rfl⟩
    | leave turned' => rw [turned] at turned'; cases turned'
    | next turned' => rw [turned] at turned'; cases turned'
  | leave turned =>
    cases hother with
    | ended turned' => rw [turned] at turned'; cases turned'
    | leave turned' => rw [turned] at turned'; cases turned'; exact ⟨rfl, rfl⟩
    | next turned' => rw [turned] at turned'; cases turned'
  | next turned _ ih =>
    cases hother with
    | ended turned' => rw [turned] at turned'; cases turned'
    | leave turned' => rw [turned] at turned'; cases turned'
    | next turned' later =>
      rw [turned] at turned'
      cases turned'
      obtain ⟨rfl, rfl⟩ := ih later
      exact ⟨rfl, rfl⟩

theorem ends (h : Looped turn state rounds result) {most : Nat} (hmost : rounds ≤ most) :
    Ends turn state most result := by
  refine ⟨rounds, hmost, fun count answer => ⟨h.unique, ?_⟩⟩
  rintro ⟨rfl, rfl⟩
  exact h

end Looped

namespace Tree

variable {P : Type u} {σ : Type v} {tree : Tree P}

/-- The loop of a path: names are collected upward until there is no node any more. -/
def pathTurn (tree : Tree P) :
    List String × Option NodeId → Turn (List String × Option NodeId) Path
  | (names, none) => .ended ⟨names.reverse⟩
  | (names, some id) =>
    match tree.find? id with
    | some node => .next (names ++ [node.title], node.parent?)
    | none => .leave ⟨names.reverse⟩

/-- A loop that collects names upward until a node passes a test, and in vain beyond the last. -/
def trailTurn (tree : Tree P) (test : NodeId → Bool)
    (found : Option Path → Turn (List String × NodeId) (Option Path)) :
    List String × NodeId → Turn (List String × NodeId) (Option Path)
  | (names, id) =>
    if test id then found (some ⟨names.reverse⟩)
    else
      match tree.parent? id with
      | some parent => .next (names ++ [tree.title id], parent)
      | none => .leave none

def pathFromTurn (tree : Tree P) (ancestor : NodeId) :
    List String × NodeId → Turn (List String × NodeId) (Option Path) :=
  tree.trailTurn (· == ancestor) .ended

def pathBelowTurn (tree : Tree P) (path : Path) :
    List String × NodeId → Turn (List String × NodeId) (Option Path) :=
  tree.trailTurn (fun id => tree.path id == path) .leave

def ascentTurn (tree : Tree P) (visitor : NodeId → Int → σ → σ) :
    Int × Option NodeId × σ → Turn (Int × Option NodeId × σ) σ
  | (_, none, state) => .ended state
  | (height, some id, state) => .next (height - 1, tree.parent? id, visitor id height state)

def isAboveTurn (tree : Tree P) (ancestor : NodeId) :
    Option NodeId → Turn (Option NodeId) Bool
  | none => .ended false
  | some id => if id = ancestor then .leave true else .next (tree.parent? id)

/-- The loop that gathers a node and all below it; each round takes one node from those to come. -/
def descendantsTurn (tree : Tree P) :
    List NodeId × List NodeId → Turn (List NodeId × List NodeId) (List NodeId)
  | (gathered, []) => .ended gathered
  | (gathered, id :: rest) =>
    match tree.find? id with
    | some node => .next (gathered ++ [id], node.children ++ rest)
    | none => .next (gathered, rest)

def walkTurn (tree : Tree P) (visitor : NodeId → Nat → σ → Signal × σ) :
    σ × List (NodeId × Nat) → Turn (σ × List (NodeId × Nat)) (Ending × σ)
  | (state, []) => .ended (.finished, state)
  | (state, (id, depth) :: rest) =>
    if tree.contains id then
      match visitor id depth state with
      | (.proceed, state) => .next (state, (tree.children id).map (·, depth + 1) ++ rest)
      | (.skip, state) => .next (state, rest)
      | (.stop, state) => .leave (.stopped, state)
    else .next (state, rest)

/-! ## How many nodes there are on a way and in a row -/

namespace Linked

theorem one_le_size (h : tree.Linked) : 1 ≤ tree.size := by
  apply length_le_size (List.nodup_singleton root)
  intro id hid
  rw [List.mem_singleton.mp hid, h.contains_root]

theorem summit_lineage (h : tree.Linked) (id : NodeId) : tree.Summit id (tree.lineage id) := by
  by_cases hid : tree.contains id = true
  · exact (h.line_lineage hid).summit h.parent?_root
  · have htop : tree.Summit id [id] := .top (parent?_of_not_contains hid)
    have hbound : 1 ≤ tree.bound := lt_bound_of_contains h.contains_root
    rwa [lineage, htop.climb_eq, List.take_of_length_le hbound]

theorem length_lineage_le_size (h : tree.Linked) (id : NodeId) :
    (tree.lineage id).length ≤ tree.size := by
  by_cases hid : tree.contains id = true
  · have hline := h.line_lineage hid
    exact length_le_size (hline.nodup h.parent?_root) fun _ =>
      hline.contains_of_mem h.contains_root
  · have htop : tree.Summit id [id] := .top (parent?_of_not_contains hid)
    rw [(h.summit_lineage id).unique htop]
    exact h.one_le_size

end Linked

/-! ## Loops upward -/

namespace Summit

variable {id : NodeId} {way : List NodeId}

theorem looped_path (h : tree.Summit id way) (names : List String) :
    ∃ rounds ≤ way.length, Looped tree.pathTurn (names, some id) rounds
      ⟨(names ++ (way.filter tree.contains).map tree.title).reverse⟩ := by
  induction h generalizing names with
  | @top id link =>
    cases hfind : tree.find? id with
    | none =>
      have hid : tree.contains id = false := by rw [contains, hfind]; rfl
      refine ⟨1, Nat.le_refl _, ?_⟩
      rw [List.filter_cons_of_neg (by simp [hid]), List.filter_nil, List.map_nil, List.append_nil]
      exact .leave (by simp only [pathTurn, hfind])
    | some node =>
      have hid : tree.contains id = true := contains_iff.mpr ⟨node, hfind⟩
      have htitle : tree.title id = node.title := title_of_find? hfind
      have hparent : node.parent? = none := by simpa [parent?, hfind] using link
      refine ⟨1, Nat.le_refl _, ?_⟩
      rw [List.filter_cons_of_pos hid, List.filter_nil, List.map_singleton, htitle]
      exact .next (by simp only [pathTurn, hfind, hparent]; rfl) (.ended rfl)
  | @child id parent way link _ ih =>
    obtain ⟨node, hfind⟩ := contains_iff.mp (contains_of_parent? link)
    have htitle : tree.title id = node.title := title_of_find? hfind
    have hparent : node.parent? = some parent := by simpa [parent?, hfind] using link
    obtain ⟨rounds, hrounds, hlater⟩ := ih (names ++ [node.title])
    refine ⟨rounds + 1, Nat.succ_le_succ hrounds, ?_⟩
    rw [List.filter_cons_of_pos (contains_of_parent? link), List.map_cons, htitle,
      List.append_cons]
    exact .next (by simp only [pathTurn, hfind, hparent]) hlater

theorem looped_trail (h : tree.Summit id way) (test : NodeId → Bool)
    {found : Option Path → Turn (List String × NodeId) (Option Path)}
    (hfound : found = .ended ∨ found = .leave) (names : List String) :
    ∃ rounds ≤ way.length, Looped (tree.trailTurn test found) (names, id) rounds
      (if way.any test then
        some ⟨(names ++ (way.takeWhile (!test ·)).map tree.title).reverse⟩ else none) := by
  have hstop : ∀ (names : List String) {id : NodeId} (rest : List NodeId), test id = true →
      ∃ rounds ≤ (id :: rest).length, Looped (tree.trailTurn test found) (names, id) rounds
        (if (id :: rest).any test then
          some ⟨(names ++ ((id :: rest).takeWhile (!test ·)).map tree.title).reverse⟩
          else none) := by
    intro names id rest htest
    have hturn : tree.trailTurn test found (names, id) = found (some ⟨names.reverse⟩) := by
      simp [trailTurn, htest]
    rw [if_pos (by simp [htest]), List.takeWhile_cons_of_neg (by simp [htest]), List.map_nil,
      List.append_nil]
    rcases hfound with rfl | rfl
    · exact ⟨0, Nat.zero_le _, .ended hturn⟩
    · exact ⟨1, Nat.succ_le_succ (Nat.zero_le _), .leave hturn⟩
  induction h generalizing names with
  | @top id link =>
    cases htest : test id with
    | true => exact hstop names [] htest
    | false =>
      refine ⟨1, Nat.le_refl _, ?_⟩
      rw [if_neg (by simp [htest])]
      exact .leave (by simp [trailTurn, htest, link])
  | @child id parent way link _ ih =>
    cases htest : test id with
    | true => exact hstop names way htest
    | false =>
      obtain ⟨rounds, hrounds, hlater⟩ := ih (names ++ [tree.title id])
      refine ⟨rounds + 1, Nat.succ_le_succ hrounds, ?_⟩
      have hturn : tree.trailTurn test found (names, id) =
          .next (names ++ [tree.title id], parent) := by
        simp [trailTurn, htest, link]
      refine .next hturn ?_
      simpa [htest] using hlater

theorem looped_isAbove (h : tree.Summit id way) (ancestor : NodeId) :
    ∃ rounds ≤ way.length,
      Looped (tree.isAboveTurn ancestor) (some id) rounds (way.contains ancestor) := by
  induction h with
  | @top id link =>
    by_cases heq : id = ancestor
    · exact ⟨1, Nat.le_refl _, by simpa [heq] using .leave (by simp [isAboveTurn])⟩
    · refine ⟨1, Nat.le_refl _, ?_⟩
      rw [List.contains_cons, beq_false_of_ne (Ne.symm heq)]
      have hturn : tree.isAboveTurn ancestor (some id) = .next none := by
        simp [isAboveTurn, heq, link]
      exact .next hturn (.ended rfl)
  | @child id parent way link _ ih =>
    by_cases heq : id = ancestor
    · refine ⟨1, Nat.succ_le_succ (Nat.zero_le _), ?_⟩
      rw [List.contains_cons, heq, beq_self_eq_true, Bool.true_or]
      exact .leave (by simp [isAboveTurn])
    · obtain ⟨rounds, hrounds, hlater⟩ := ih
      refine ⟨rounds + 1, Nat.succ_le_succ hrounds, ?_⟩
      rw [List.contains_cons, beq_false_of_ne (Ne.symm heq), Bool.false_or]
      exact .next (by simp [isAboveTurn, heq, link]) hlater

theorem looped_ascent (h : tree.Summit id way) (visitor : NodeId → Int → σ → σ) (steps : Nat)
    (state : σ) :
    Looped (tree.ascentTurn visitor) (-(steps : Int), some id, state) way.length
      ((way.zipIdx steps).foldl (fun state step => visitor step.1 (-(step.2 : Int)) state)
        state) := by
  induction h generalizing steps state with
  | @top id link =>
    have hturn : tree.ascentTurn visitor (-(steps : Int), some id, state) =
        .next (-(steps : Int) - 1, none, visitor id (-(steps : Int)) state) := by
      rw [ascentTurn, link]
    exact .next hturn (.ended rfl)
  | @child id parent way link _ ih =>
    have hheight : -(steps : Int) - 1 = -((steps + 1 : Nat) : Int) := by omega
    have hturn : tree.ascentTurn visitor (-(steps : Int), some id, state) =
        .next (-((steps + 1 : Nat) : Int), some parent, visitor id (-(steps : Int)) state) := by
      rw [ascentTurn, link, hheight]
    exact .next hturn (ih (steps + 1) _)

end Summit

theorem Linked.pathBelow?_eq (h : tree.Linked) (id : NodeId) (path : Path) :
    tree.pathBelow? id path =
      if (tree.lineage id).any (tree.path · == path) then
        some ⟨((tree.lineage id).takeWhile fun other => !(tree.path other == path)).reverse.map
          tree.title⟩
      else none := by
  have hnodup := (h.summit_lineage id).nodup
  cases hfound : (tree.lineage id).find? fun other => tree.path other == path with
  | none =>
    rw [List.find?_eq_none] at hfound
    rw [pathBelow?, List.find?_eq_none.mpr hfound, if_neg (by simpa using hfound)]
    rfl
  | some ancestor =>
    obtain ⟨htest, before, after, hway, hbefore⟩ := List.find?_eq_some_iff_append.mp hfound
    have hmem : ancestor ∈ tree.lineage id := List.mem_of_find?_eq_some hfound
    have hany : (tree.lineage id).any (tree.path · == path) = true :=
      List.any_eq_true.mpr ⟨ancestor, hmem, htest⟩
    have hold : ∀ other ∈ before, (other != ancestor) = true := by
      intro other hother
      rw [hway, List.nodup_append] at hnodup
      exact bne_iff_ne.mpr (hnodup.2.2 other hother ancestor List.mem_cons_self)
    rw [pathBelow?, hfound, Option.bind_some, pathFrom?,
      if_pos (List.contains_iff_mem.mpr hmem), if_pos hany, hway,
      List.takeWhile_append_of_pos hold, List.takeWhile_append_of_pos hbefore]
    simp [htest]

/-! ## Loops downward -/

theorem Spans.looped_descendants {ids : List NodeId} {forest : Forest (NodeId × Node P)}
    (h : tree.Spans ids forest) {gathered rest result : List NodeId} {rounds : Nat}
    (hlater : Looped tree.descendantsTurn (gathered ++ forest.numbers, rest) rounds result) :
    Looped tree.descendantsTurn (gathered, ids ++ rest) (rounds + forest.size) result := by
  induction h generalizing gathered rest rounds with
  | nil => simpa [Forest.size] using hlater
  | @cons id node others below right found _ _ ihdown ihright =>
    have hrest : Looped tree.descendantsTurn ((gathered ++ [id]) ++ below.numbers, others ++ rest)
        (rounds + right.size) result := by
      apply ihright
      simpa using hlater
    have hturn : tree.descendantsTurn (gathered, id :: others ++ rest) =
        .next (gathered ++ [id], node.children ++ (others ++ rest)) := by
      simp [descendantsTurn, found]
    have hrounds : rounds + (below.size + right.size + 1) =
        rounds + right.size + below.size + 1 := by
      omega
    rw [Forest.size, hrounds]
    exact .next hturn (ihdown hrest)

theorem walkTurn_of_proceed {visitor : NodeId → Nat → σ → Signal × σ} {id : NodeId} {depth : Nat}
    {state after : σ} (hid : tree.contains id = true)
    (call : visitor id depth state = (.proceed, after)) (rest : List (NodeId × Nat)) :
    tree.walkTurn visitor (state, (id, depth) :: rest) =
      .next (after, (tree.children id).map (·, depth + 1) ++ rest) := by
  simp [walkTurn, hid, call]

/-- A walk makes one round for each call of its tour. -/
theorem Tour.looped_walk (h : tree.Linked) {visitor : NodeId → Nat → σ → Signal × σ} {depth : Nat}
    {ids : List NodeId} {state final : σ} {calls : List Call} {ending : Ending}
    (htour : tree.Tour visitor depth ids state calls ending final)
    (hids : ∀ id ∈ ids, tree.contains id = true) {rest : List (NodeId × Nat)} {rounds : Nat}
    {result : Ending × σ}
    (hlater : if ending = .finished then Looped (tree.walkTurn visitor) (final, rest) rounds result
      else rounds = 0 ∧ result = (ending, final)) :
    Looped (tree.walkTurn visitor) (state, ids.map (·, depth) ++ rest) (rounds + calls.length)
      result := by
  induction htour generalizing rest rounds with
  | nil => simpa using hlater
  | @stop depth id _ _ _ call =>
    obtain ⟨rfl, rfl⟩ := hlater
    exact .leave (by simp [walkTurn, hids id List.mem_cons_self, call])
  | @skip depth id others state after _ _ _ call _ ih =>
    have hturn : tree.walkTurn visitor (state, (id :: others).map (·, depth) ++ rest) =
        .next (after, others.map (·, depth) ++ rest) := by
      simp [walkTurn, hids id List.mem_cons_self, call]
    exact .next hturn (ih (fun other hother => hids other (List.mem_cons_of_mem _ hother)) hlater)
  | @stopBelow depth id others state after _ _ call _ ih =>
    have hturn := walkTurn_of_proceed (hids id List.mem_cons_self) call
      (others.map (·, depth) ++ rest)
    exact .next hturn (ih (fun child hchild => h.contains_child hchild) hlater)
  | @proceed depth id others state after _ _ below calls _ call _ _ ihdown ihright =>
    have hturn := walkTurn_of_proceed (hids id List.mem_cons_self) call
      (others.map (·, depth) ++ rest)
    have hright := ihright (fun other hother => hids other (List.mem_cons_of_mem _ hother)) hlater
    have hdown := ihdown (fun child hchild => h.contains_child hchild) hright
    have hrounds : rounds + (below.length + calls.length + 1) =
        rounds + calls.length + below.length + 1 := by
      omega
    rw [List.length_cons, List.length_append, hrounds]
    exact .next hturn hdown

/-! ## The recursion that moves a subtree to another tree -/

/-- The nodes of a row go one after another from a tree to new slots of another one: each leaves the
one tree, becomes a leaf in the other, then the nodes below it follow, and last it gets those of
them that have come as its children. What is left, what is grown, the numbers of the row there and
how deep the calls are nested. -/
inductive Transplanted :
    Tree P → List NodeId → Tree P → Option NodeId → Tree P → Tree P → List NodeId → Nat → Prop
  | nil {source target : Tree P} {parent? : Option NodeId} :
      Transplanted source [] target parent? source target [] 0
  | missing {source target left grown : Tree P} {parent? : Option NodeId} {id : NodeId}
      {rest moved : List NodeId} {depth : Nat} (gone : source.find? id = none)
      (right : Transplanted source rest target parent? left grown moved depth) :
      Transplanted source (id :: rest) target parent? left grown moved (max 1 depth)
  | moved {source target left grown left' grown' : Tree P} {parent? : Option NodeId} {id : NodeId}
      {node : Node P} {rest children siblings : List NodeId} {depth depth' : Nat}
      (found : source.find? id = some node)
      (down : Transplanted (source.erase id) node.children
        (target.push ⟨node.toLabel, parent?, []⟩) (some target.bound) left grown children depth)
      (right : Transplanted left rest (grown.update target.bound fun node => { node with children })
        parent? left' grown' siblings depth') :
      Transplanted source (id :: rest) target parent? left' grown' (target.bound :: siblings)
        (max (depth + 1) depth')

/-- The calls that move a node and all below it are nested so deep at most, and come to one end. -/
def Transplants (source : Tree P) (id : NodeId) (target : Tree P) (parent? : Option NodeId)
    (most : Nat) (left grown : Tree P) (moved : List NodeId) : Prop :=
  ∃ depth ≤ most, ∀ left' grown' moved' depth',
    Transplanted source [id] target parent? left' grown' moved' depth' ↔
      left' = left ∧ grown' = grown ∧ moved' = moved ∧ depth' = depth

namespace Transplanted

variable {source target left grown : Tree P} {parent? : Option NodeId} {moved : List NodeId}
  {depth : Nat}

theorem unique {ids : List NodeId}
    (h : Transplanted source ids target parent? left grown moved depth)
    {left' grown' : Tree P} {moved' : List NodeId} {depth' : Nat}
    (hother : Transplanted source ids target parent? left' grown' moved' depth') :
    left' = left ∧ grown' = grown ∧ moved' = moved ∧ depth' = depth := by
  induction h generalizing left' grown' moved' depth' with
  | nil =>
    cases hother
    exact ⟨rfl, rfl, rfl, rfl⟩
  | missing gone _ ih =>
    cases hother with
    | missing _ right' =>
      obtain ⟨rfl, rfl, rfl, rfl⟩ := ih right'
      exact ⟨rfl, rfl, rfl, rfl⟩
    | moved found' _ _ => rw [gone] at found'; cases found'
  | moved found _ _ ihdown ihright =>
    cases hother with
    | missing gone' _ => rw [found] at gone'; cases gone'
    | moved found' down' right' =>
      rw [found] at found'
      cases found'
      obtain ⟨rfl, rfl, rfl, rfl⟩ := ihdown down'
      obtain ⟨rfl, rfl, rfl, rfl⟩ := ihright right'
      exact ⟨rfl, rfl, rfl, rfl⟩

theorem transplants {id : NodeId}
    (h : Transplanted source [id] target parent? left grown moved depth) {most : Nat}
    (hmost : depth ≤ most) :
    Transplants source id target parent? most left grown moved := by
  refine ⟨depth, hmost, fun left' grown' moved' depth' => ⟨h.unique, ?_⟩⟩
  rintro ⟨rfl, rfl, rfl, rfl⟩
  exact h

end Transplanted

theorem Spans.foldl_erase {ids doomed : List NodeId} {forest : Forest (NodeId × Node P)}
    (h : tree.Spans ids forest) (hkept : ∀ id ∈ forest.numbers, id ∉ doomed) :
    (doomed.foldl erase tree).Spans ids forest :=
  h.congr _ fun id hid => by rw [find?_foldl_erase, if_neg (hkept id hid)]

theorem plantForest_cons (parent : NodeId) (label : Label P) (below rest : Forest (Label P))
    (target : Tree P) :
    plantForest parent (.cons label below rest) target =
      let planted := plantForest target.bound below (target.push ⟨label, some parent, []⟩)
      let grown := plantForest parent rest
        (planted.1.update target.bound fun node => { node with children := planted.2 })
      (grown.1, target.bound :: grown.2) := rfl

/-- A row of a tree is moved by calls that are nested no deeper than it has nodes below it, and what
comes of it is the planted row. -/
theorem Spans.transplanted {source : Tree P} {ids : List NodeId}
    {forest : Forest (NodeId × Node P)} (h : source.Spans ids forest)
    (hnodup : forest.numbers.Nodup) (target : Tree P) (parent : NodeId) :
    ∃ depth ≤ forest.size, Transplanted source ids target (some parent)
      (forest.numbers.foldl erase source)
      (plantForest parent (forest.map (·.2.toLabel)) target).1
      (plantForest parent (forest.map (·.2.toLabel)) target).2 depth := by
  induction forest generalizing source ids target parent with
  | nil =>
    cases h
    exact ⟨0, Nat.le_refl _, .nil⟩
  | cons entry below others ihbelow ihothers =>
    cases h with
    | @cons id node rest _ _ found down right =>
      rw [Forest.numbers_cons, List.nodup_cons, List.mem_append, not_or,
        List.nodup_append] at hnodup
      obtain ⟨⟨hbelow, hothers⟩, hnodup, hnodup', happart⟩ := hnodup
      have hdown : ([id].foldl erase source).Spans node.children below :=
        down.foldl_erase fun other hother heq => hbelow (List.mem_singleton.mp heq ▸ hother)
      obtain ⟨depth, hdepth, hmoved⟩ :=
        ihbelow hdown hnodup (target.push ⟨node.toLabel, some parent, []⟩) target.bound
      have hright : ((id :: below.numbers).foldl erase source).Spans rest others := by
        refine right.foldl_erase fun other hother hmem => ?_
        rcases List.mem_cons.mp hmem with rfl | hmem
        · exact hothers hother
        · exact happart other hmem other hother rfl
      obtain ⟨depth', hdepth', hmoved'⟩ := ihothers hright hnodup' _ parent
      refine ⟨max (depth + 1) depth', ?_, ?_⟩
      · rw [Forest.size]
        omega
      · rw [Forest.numbers_cons, List.foldl_cons, List.foldl_append, Forest.map, plantForest_cons]
        exact .moved found hmoved hmoved'

theorem Spans.transplants {source : Tree P} {id : NodeId} {node : Node P}
    {below : Forest (NodeId × Node P)} (h : source.Spans [id] (.cons (id, node) below .nil))
    (hnodup : (id :: below.numbers).Nodup) (target : Tree P) (parent? : Option NodeId) {most : Nat}
    (hmost : below.size + 1 ≤ most) :
    Transplants source id target parent? most ((id :: below.numbers).foldl erase source)
      (target.plant parent? ⟨node.toLabel, below.map (·.2.toLabel)⟩).1 [target.bound] := by
  cases h with
  | cons found down _ =>
    obtain ⟨hbelow, hnodup⟩ := List.nodup_cons.mp hnodup
    have hdown : ([id].foldl erase source).Spans node.children below :=
      down.foldl_erase fun other hother heq => hbelow (List.mem_singleton.mp heq ▸ hother)
    obtain ⟨depth, hdepth, hmoved⟩ :=
      hdown.transplanted hnodup (target.push ⟨node.toLabel, parent?, []⟩) target.bound
    refine Transplanted.transplants (.moved found hmoved .nil) (Nat.le_trans ?_ hmost)
    omega

namespace Linked

theorem transplants (h : tree.Linked) {id : NodeId} {node : Node P}
    (hnode : tree.find? id = some node) (target : Tree P) (parent? : Option NodeId) :
    Transplants tree id target parent? tree.size ((tree.descendants id).foldl erase tree)
      (target.plant parent? ⟨node.toLabel, tree.labelsBelow id⟩).1 [target.bound] := by
  have hspan := h.spans_singleton hnode
  have hnodup := h.nodup_descendants (contains_iff.mpr ⟨node, hnode⟩)
  rw [h.descendants_eq hnode] at hnodup ⊢
  exact hspan.transplants hnodup target parent? (h.size_of_spans_le hspan)

theorem transplants_unlink (h : tree.Linked) {id : NodeId} {node : Node P}
    (hnode : tree.find? id = some node) :
    Transplants (tree.unlink id) id empty none tree.size (tree.prune id)
      (ofOutline ⟨node.toLabel, tree.labelsBelow id⟩) [root] := by
  have hid : tree.contains id = true := contains_iff.mpr ⟨node, hnode⟩
  obtain ⟨cut, hcut⟩ := contains_iff.mp ((contains_unlink tree id id).trans hid)
  have hlabel : cut.toLabel = node.toLabel := by
    have hsame := label?_unlink tree id id
    rwa [label?_of_find? hcut, label?_of_find? hnode, Option.some_inj] at hsame
  have hnodup := h.nodup_descendants hid
  rw [h.descendants_eq hnode] at hnodup
  have hmoved := (h.spans_unlink hnode hcut).transplants hnodup empty none
    (h.size_of_spans_le (h.spans_singleton hnode))
  rw [hlabel, ← h.descendants_eq hnode, ← h.descendants_unlink hid] at hmoved
  exact hmoved

theorem exists_transplants (h : tree.Linked) (id : NodeId) (target : Tree P)
    (parent? : Option NodeId) :
    ∃ left grown moved, Transplants tree id target parent? tree.size left grown moved := by
  cases hnode : tree.find? id with
  | none => exact ⟨_, _, _, Transplanted.transplants (.missing hnode .nil) h.one_le_size⟩
  | some node => exact ⟨_, _, _, h.transplants hnode target parent?⟩

theorem transplants_graft (h : tree.Linked) {target grown : Tree P} {parent new : NodeId}
    (hgraft : target.graft parent tree = (grown, .ok new)) :
    ∃ left planted, Transplants tree root target (some parent) tree.size left planted [new] ∧
      grown = planted.update parent (·.addChild new) := by
  obtain ⟨node, hnode⟩ := contains_iff.mp h.contains_root
  rw [Tree.graft] at hgraft
  split at hgraft
  · rw [outline?_of_find? hnode] at hgraft
    cases hgraft
    exact ⟨_, _, h.transplants hnode target (some parent), rfl⟩
  · cases hgraft

theorem transplants_detach (h : tree.Linked) {id : NodeId} {rest part : Tree P}
    (hdetach : tree.detach id = (rest, .ok part)) :
    Transplants (tree.unlink id) id empty none tree.size rest part [root] := by
  rw [Tree.detach] at hdetach
  split at hdetach
  · cases hdetach
  · split at hdetach
    · next houtline =>
      obtain ⟨node, hnode, rfl⟩ := Option.map_eq_some_iff.mp houtline
      cases hdetach
      exact h.transplants_unlink hnode
    · cases hdetach

end Linked

/-! ## All of them -/

namespace Linked

theorem ends_path (h : tree.Linked) (id : NodeId) :
    Ends tree.pathTurn ([], some id) tree.size (tree.path id) := by
  obtain ⟨rounds, hrounds, hlooped⟩ := (h.summit_lineage id).looped_path []
  rw [List.nil_append, ← List.map_reverse] at hlooped
  exact hlooped.ends (Nat.le_trans hrounds (h.length_lineage_le_size id))

theorem ends_pathFrom? (h : tree.Linked) (ancestor id : NodeId) :
    Ends (tree.pathFromTurn ancestor) ([], id) tree.size (tree.pathFrom? ancestor id) := by
  obtain ⟨rounds, hrounds, hlooped⟩ :=
    (h.summit_lineage id).looped_trail (· == ancestor) (.inl rfl) []
  have hmem : (tree.lineage id).contains ancestor = (tree.lineage id).any (· == ancestor) := by
    rw [Bool.eq_iff_iff, List.contains_iff_mem, List.any_eq_true]
    simp
  rw [List.nil_append, ← List.map_reverse, ← hmem] at hlooped
  exact hlooped.ends (Nat.le_trans hrounds (h.length_lineage_le_size id))

theorem ends_pathBelow? (h : tree.Linked) (id : NodeId) (path : Path) :
    Ends (tree.pathBelowTurn path) ([], id) tree.size (tree.pathBelow? id path) := by
  obtain ⟨rounds, hrounds, hlooped⟩ :=
    (h.summit_lineage id).looped_trail (fun other => tree.path other == path) (.inr rfl) []
  rw [List.nil_append, ← List.map_reverse, ← h.pathBelow?_eq] at hlooped
  exact hlooped.ends (Nat.le_trans hrounds (h.length_lineage_le_size id))

theorem ends_isAbove (h : tree.Linked) (ancestor id : NodeId) :
    Ends (tree.isAboveTurn ancestor) (some id) tree.size (tree.isAbove ancestor id) := by
  obtain ⟨rounds, hrounds, hlooped⟩ := (h.summit_lineage id).looped_isAbove ancestor
  exact hlooped.ends (Nat.le_trans hrounds (h.length_lineage_le_size id))

theorem ends_ascent (h : tree.Linked) (id : NodeId) (visitor : NodeId → Int → σ → σ) (state : σ) :
    Ends (tree.ascentTurn visitor) (0, if tree.contains id then some id else none, state) tree.size
      ((tree.ascent id).foldl (fun state step => visitor step.1 step.2 state) state) := by
  rw [ascent]
  split
  · have hlooped := (h.summit_lineage id).looped_ascent visitor 0 state
    rw [List.foldl_map]
    exact hlooped.ends (h.length_lineage_le_size id)
  · have hturn : tree.ascentTurn visitor (0, none, state) = .ended state := rfl
    exact (Looped.ended hturn).ends (Nat.zero_le _)

theorem ends_descendants (h : tree.Linked) (start : NodeId) :
    Ends tree.descendantsTurn ([], [start]) tree.size (tree.descendants start) := by
  cases hnode : tree.find? start with
  | none =>
    have hstart : ¬tree.contains start = true := by simp [contains, hnode]
    have hturn : tree.descendantsTurn ([], [start]) = .next ([], []) := by
      simp [descendantsTurn, hnode]
    rw [descendants_of_not_contains hstart]
    exact Looped.ends (.next hturn (.ended rfl)) h.one_le_size
  | some node =>
    obtain ⟨forest, hspan⟩ : ∃ forest, tree.Spans [start] forest := ⟨_, h.spans_singleton hnode⟩
    have hlooped : Looped tree.descendantsTurn ([], [start] ++ []) (0 + forest.size)
        forest.numbers :=
      hspan.looped_descendants (.ended rfl)
    rw [Nat.zero_add] at hlooped
    rw [hspan.descendants_eq (h.size_le_bound hspan (apart_singleton tree start))]
    exact hlooped.ends (h.size_of_spans_le hspan)

theorem ends_walk (h : tree.Linked) (start : NodeId) (visitor : NodeId → Nat → σ → Signal × σ)
    (state : σ) :
    Ends (tree.walkTurn visitor) (state, [(start, 0)]) tree.size
      (tree.walk start visitor state) := by
  by_cases hstart : tree.contains start = true
  · obtain ⟨node, hnode⟩ := contains_iff.mp hstart
    have hspan := h.spans_singleton hnode
    have hids : ∀ id ∈ [start], tree.contains id = true := fun id hid =>
      List.mem_singleton.mp hid ▸ hstart
    obtain ⟨calls, ending, final, htour, hlength⟩ := hspan.exists_tour visitor 0 state
    have hroom := h.size_le_bound hspan (apart_singleton tree start)
    have hwalk : tree.walk start visitor state = (ending, final) :=
      htour.walkOver_row h hids (Nat.le_trans hlength hroom)
    have hlooped : Looped (tree.walkTurn visitor) (state, [start].map (·, 0) ++ [])
        (0 + calls.length) (ending, final) := by
      refine htour.looped_walk h hids ?_
      split
      · next hfinished =>
        rw [hfinished]
        exact .ended rfl
      · exact ⟨rfl, rfl⟩
    rw [Nat.zero_add] at hlooped
    rw [hwalk]
    exact hlooped.ends (Nat.le_trans hlength (h.size_of_spans_le hspan))
  · have hturn : tree.walkTurn visitor (state, [(start, 0)]) = .next (state, []) := by
      simp [walkTurn, hstart]
    have hwalk : tree.walk start visitor state = (.finished, state) := by
      obtain ⟨room, hroom⟩ := Nat.exists_eq_add_of_le' (lt_bound_of_contains h.contains_root)
      rw [walk, hroom]
      cases room <;> simp [walkOver, hstart]
    rw [hwalk]
    exact Looped.ends (.next hturn (.ended rfl)) h.one_le_size

end Linked

/-- The loops that read a tree end whatever node they are asked about, known or not: those that go
up from a node after no more rounds than the tree has nodes, and those that go down after taking no
more nodes than that from those to come. They give what the functions give that bound their steps.
The calls that move a node to another tree are nested no deeper than the tree has nodes; a graft and
a detachment, which first cuts the node from its parent, end with what has been moved. -/
theorem loops_end {good : P → Prop} (hreach : Reachable good tree) :
    (∀ id, Ends tree.pathTurn ([], some id) tree.size (tree.path id)) ∧
    (∀ id path, Ends (tree.pathBelowTurn path) ([], id) tree.size (tree.pathBelow? id path)) ∧
    (∀ ancestor id,
      Ends (tree.pathFromTurn ancestor) ([], id) tree.size (tree.pathFrom? ancestor id)) ∧
    (∀ id (visitor : NodeId → Int → σ → σ) state,
      Ends (tree.ascentTurn visitor) (0, if tree.contains id then some id else none, state)
        tree.size ((tree.ascent id).foldl (fun state step => visitor step.1 step.2 state) state)) ∧
    (∀ ancestor id,
      Ends (tree.isAboveTurn ancestor) (some id) tree.size (tree.isAbove ancestor id)) ∧
    (∀ start, Ends tree.descendantsTurn ([], [start]) tree.size (tree.descendants start)) ∧
    (∀ start (visitor : NodeId → Nat → σ → Signal × σ) state,
      Ends (tree.walkTurn visitor) (state, [(start, 0)]) tree.size
        (tree.walk start visitor state)) ∧
    (∀ id target parent?, ∃ left grown moved,
      Transplants tree id target parent? tree.size left grown moved) ∧
    (∀ target grown parent new, target.graft parent tree = (grown, .ok new) →
      ∃ left planted, Transplants tree root target (some parent) tree.size left planted [new] ∧
        grown = planted.update parent (·.addChild new)) ∧
    ∀ id rest part, tree.detach id = (rest, .ok part) →
      Transplants (tree.unlink id) id empty none tree.size rest part [root] := by
  have h := hreach.linked
  exact ⟨h.ends_path, h.ends_pathBelow?, h.ends_pathFrom?, h.ends_ascent, h.ends_isAbove,
    h.ends_descendants, h.ends_walk, h.exists_transplants, fun _ _ _ _ => h.transplants_graft,
    fun _ _ _ => h.transplants_detach⟩

/-- A tree of four nodes of which one has been detached. -/
private def ladder : Tree Nat :=
  ((ofOutline ⟨⟨some "ladder", 0⟩,
    .cons ⟨some "top", 1⟩ (.cons ⟨none, 2⟩ (.cons ⟨some "rung", 3⟩ .nil .nil) .nil)
      (.cons ⟨some "side", 4⟩ .nil .nil)⟩).detach 4).1

theorem loops_end_ladder :
    Reachable (fun _ => True) ladder ∧ ladder.size = 4 ∧ ¬ladder.contains 4 = true ∧
    Ends ladder.pathTurn ([], some 3) 4 ⟨["ladder", "top", "", "rung"]⟩ ∧
    Ends ladder.pathTurn ([], some 4) 4 ⟨[]⟩ ∧
    Ends (ladder.pathBelowTurn ⟨["ladder"]⟩) ([], 3) 4 (some ⟨["top", "", "rung"]⟩) ∧
    Ends (ladder.pathFromTurn 4) ([], 3) 4 none ∧
    Ends (ladder.ascentTurn fun id height seen => seen ++ [(id, height)]) (0, some 3, []) 4
      [(3, 0), (2, -1), (1, -2), (0, -3)] ∧
    Ends (ladder.isAboveTurn 3) (some 2) 4 false ∧
    Ends ladder.descendantsTurn ([], [root]) 4 [0, 1, 2, 3] ∧
    Ends ladder.descendantsTurn ([], [4]) 4 [] ∧
    Ends (ladder.walkTurn fun id _ seen => (if id = 2 then .skip else .proceed, seen ++ [id]))
      ([], [(root, 0)]) 4 (.finished, [0, 1, 2]) ∧
    ∃ rest part, ladder.detach 1 = (rest, .ok part) ∧ part.size = 3 ∧
      Transplants (ladder.unlink 1) 1 empty none 4 rest part [root] := by
  have hreach : Reachable (fun _ => True) ladder :=
    .edited (reachable_ofOutline _ trivial fun _ _ => trivial) (.detach _ _)
  obtain ⟨hpath, hbelow, hfrom, hascent, habove, hdescendants, _⟩ :=
    loops_end (σ := List (NodeId × Int)) hreach
  obtain ⟨_, _, _, _, _, _, hwalk, _, _, hdetach⟩ := loops_end (σ := List NodeId) hreach
  exact ⟨hreach, rfl, nofun, hpath 3, hpath 4, hbelow 3 _, hfrom 4 3, hascent 3 _ [], habove 3 2,
    hdescendants root, hdescendants 4, hwalk root _ [], _, _, rfl, rfl, hdetach 1 _ _ rfl⟩

end Tree

end Conform
