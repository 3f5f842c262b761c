import Conform.Proofs.Tree.Reachable
/-!
# Tours

The walk that goes down by recursion: a call on a node, then a tour of its
children unless the visitor leaves them out, then the nodes to the right. The
walk over a list of what is to come makes the same calls with the same states
in between. The list holds what the recursion has yet to return to, and no
call needs more than one step of the budget.
-/

namespace Conform

universe u v

open Conform.Tree (root)

/-- One call of a visitor, with its answer. -/
structure Call where
  node : NodeId
  depth : Nat
  answer : Signal
  deriving DecidableEq, Repr

def logged {σ : Type v} (visitor : NodeId → Nat → σ → Signal × σ) (id : NodeId) (depth : Nat)
    (state : σ × List Call) : Signal × σ × List Call :=
  let (answer, after) := visitor id depth state.1
  (answer, after, state.2 ++ [⟨id, depth, answer⟩])

theorem logged_eq {σ : Type v} {visitor : NodeId → Nat → σ → Signal × σ} {id : NodeId} {depth : Nat}
    {state after : σ} {signal : Signal} (call : visitor id depth state = (signal, after))
    (before : List Call) :
    logged visitor id depth (state, before) = (signal, after, before ++ [⟨id, depth, signal⟩]) := by
  simp [logged, call]

namespace Tree

variable {P : Type u} {σ : Type v}

/-- The tour of a row of nodes of one depth from a state: the calls it makes, how it ends, and the
state in which it ends. -/
inductive Tour (tree : Tree P) (visitor : NodeId → Nat → σ → Signal × σ) :
    Nat → List NodeId → σ → List Call → Ending → σ → Prop
  | nil {depth : Nat} {state : σ} : Tour tree visitor depth [] state [] .finished state
  | stop {depth : Nat} {id : NodeId} {rest : List NodeId} {state final : σ}
      (call : visitor id depth state = (.stop, final)) :
      Tour tree visitor depth (id :: rest) state [⟨id, depth, .stop⟩] .stopped final
  | skip {depth : Nat} {id : NodeId} {rest : List NodeId} {state after final : σ}
      {calls : List Call} {ending : Ending} (call : visitor id depth state = (.skip, after))
      (right : Tour tree visitor depth rest after calls ending final) :
      Tour tree visitor depth (id :: rest) state (⟨id, depth, .skip⟩ :: calls) ending final
  | stopBelow {depth : Nat} {id : NodeId} {rest : List NodeId} {state after final : σ}
      {calls : List Call} (call : visitor id depth state = (.proceed, after))
      (down : Tour tree visitor (depth + 1) (tree.children id) after calls .stopped final) :
      Tour tree visitor depth (id :: rest) state (⟨id, depth, .proceed⟩ :: calls) .stopped final
  | proceed {depth : Nat} {id : NodeId} {rest : List NodeId} {state after between final : σ}
      {below calls : List Call} {ending : Ending}
      (call : visitor id depth state = (.proceed, after))
      (down : Tour tree visitor (depth + 1) (tree.children id) after below .finished between)
      (right : Tour tree visitor depth rest between calls ending final) :
      Tour tree visitor depth (id :: rest) state (⟨id, depth, .proceed⟩ :: (below ++ calls)) ending
        final

namespace Tour

variable {tree : Tree P} {visitor : NodeId → Nat → σ → Signal × σ} {depth : Nat} {ids : List NodeId}
  {state final : σ} {calls : List Call} {ending : Ending}

/-- With a step for every call the walk makes the tour and then goes on to the right. -/
theorem walkOver_eq (h : tree.Linked) (htour : tree.Tour visitor depth ids state calls ending final)
    (hids : ∀ id ∈ ids, tree.contains id = true) {budget : Nat} (hbudget : calls.length ≤ budget)
    (rest : List (NodeId × Nat)) :
    tree.walkOver visitor budget (ids.map (·, depth) ++ rest) state =
      if ending = .finished then tree.walkOver visitor (budget - calls.length) rest final
      else (ending, final) := by
  induction htour generalizing budget rest with
  | nil => simp
  | @stop depth id _ _ _ call =>
    obtain ⟨room, rfl⟩ : ∃ room, budget = room + 1 := ⟨budget - 1, by simp at hbudget; omega⟩
    simp [walkOver, hids id List.mem_cons_self, call]
  | @skip depth id _ _ _ _ calls _ call _ ih =>
    simp only [List.length_cons] at hbudget ⊢
    obtain ⟨room, rfl⟩ : ∃ room, budget = room + 1 := ⟨budget - 1, by omega⟩
    have hroom : calls.length ≤ room := by omega
    have hright := ih (fun other hother => hids other (List.mem_cons_of_mem _ hother)) hroom rest
    simp [walkOver, hids id List.mem_cons_self, call, hright]
  | @stopBelow depth id rest' _ _ _ calls call _ ih =>
    simp only [List.length_cons] at hbudget ⊢
    obtain ⟨room, rfl⟩ : ∃ room, budget = room + 1 := ⟨budget - 1, by omega⟩
    have hroom : calls.length ≤ room := by omega
    have hdown := ih (fun child hchild => h.contains_child hchild) hroom
      (rest'.map (·, depth) ++ rest)
    simp [walkOver, hids id List.mem_cons_self, call, hdown]
  | @proceed depth id rest' _ _ _ _ below calls _ call _ _ ihdown ihright =>
    simp only [List.length_cons, List.length_append] at hbudget ⊢
    obtain ⟨room, rfl⟩ : ∃ room, budget = room + 1 := ⟨budget - 1, by omega⟩
    have hroom : below.length ≤ room := by omega
    have hroom' : calls.length ≤ room - below.length := by omega
    have hdown := ihdown (fun child hchild => h.contains_child hchild) hroom
      (rest'.map (·, depth) ++ rest)
    have hright := ihright (fun other hother => hids other (List.mem_cons_of_mem _ hother)) hroom'
      rest
    have hleft : room + 1 - (below.length + calls.length + 1) =
        room - below.length - calls.length := by
      omega
    simp [walkOver, hids id List.mem_cons_self, call, hdown, hright, hleft]

theorem walkOver_row (h : tree.Linked)
    (htour : tree.Tour visitor depth ids state calls ending final)
    (hids : ∀ id ∈ ids, tree.contains id = true) {budget : Nat} (hbudget : calls.length ≤ budget) :
    tree.walkOver visitor budget (ids.map (·, depth)) state = (ending, final) := by
  have hwalk := htour.walkOver_eq h hids hbudget []
  rw [List.append_nil] at hwalk
  rw [hwalk]
  split
  · next hfinished =>
    rw [hfinished]
    cases budget - calls.length <;> rfl
  · rfl

theorem log (htour : tree.Tour visitor depth ids state calls ending final) (before : List Call) :
    tree.Tour (logged visitor) depth ids (state, before) calls ending (final, before ++ calls) := by
  induction htour generalizing before with
  | nil =>
    rw [List.append_nil]
    exact .nil
  | stop call => exact .stop (logged_eq call before)
  | skip call _ ih =>
    rw [List.append_cons]
    exact .skip (logged_eq call before) (ih _)
  | stopBelow call _ ih =>
    rw [List.append_cons]
    exact .stopBelow (logged_eq call before) (ih _)
  | proceed call _ _ ihdown ihright =>
    rw [List.append_cons, ← List.append_assoc]
    exact .proceed (logged_eq call before) (ihdown _) (ihright _)

/-- There is one tour of a row from a state, because one walk makes it. -/
theorem unique (h : tree.Linked) (htour : tree.Tour visitor depth ids state calls ending final)
    (hids : ∀ id ∈ ids, tree.contains id = true) {calls' : List Call} {ending' : Ending}
    {final' : σ} (htour' : tree.Tour visitor depth ids state calls' ending' final') :
    calls' = calls ∧ ending' = ending ∧ final' = final := by
  have hwalk := (htour.log []).walkOver_row h hids (Nat.le_add_right _ calls'.length)
  rw [(htour'.log []).walkOver_row h hids (Nat.le_add_left _ calls.length)] at hwalk
  simp only [List.nil_append, Prod.mk.injEq] at hwalk
  exact ⟨hwalk.2.2, hwalk.1, hwalk.2.1⟩

theorem ending_eq (htour : tree.Tour visitor depth ids state calls ending final) :
    (ending = .stopped ∧ ∃ before last, calls = before ++ [last] ∧ last.answer = .stop ∧
      ∀ call ∈ before, call.answer ≠ .stop) ∨
    ending = .finished ∧ ∀ call ∈ calls, call.answer ≠ .stop := by
  induction htour with
  | nil => exact .inr ⟨rfl, by simp⟩
  | stop call => exact .inl ⟨rfl, [], _, rfl, rfl, by simp⟩
  | skip call _ ih =>
    rcases ih with ⟨rfl, before, last, rfl, hlast, hbefore⟩ | ⟨rfl, hcalls⟩
    · exact .inl ⟨rfl, _ :: before, last, rfl, hlast, by simpa using hbefore⟩
    · exact .inr ⟨rfl, by simpa using hcalls⟩
  | stopBelow call _ ih =>
    rcases ih with ⟨_, before, last, rfl, hlast, hbefore⟩ | ⟨heq, _⟩
    · exact .inl ⟨rfl, _ :: before, last, rfl, hlast, by simpa using hbefore⟩
    · cases heq
  | @proceed depth id _ _ _ _ _ below calls _ call _ _ ihdown ihright =>
    rcases ihdown with ⟨heq, _⟩ | ⟨_, hbelow⟩
    · cases heq
    rcases ihright with ⟨rfl, before, last, rfl, hlast, hbefore⟩ | ⟨rfl, hcalls⟩
    · refine .inl ⟨rfl, ⟨id, depth, .proceed⟩ :: (below ++ before), last, by simp, hlast, ?_⟩
      intro call hcall
      rcases List.mem_cons.mp hcall with rfl | hcall
      · exact Signal.noConfusion
      · rcases List.mem_append.mp hcall with hcall | hcall
        · exact hbelow call hcall
        · exact hbefore call hcall
    · refine .inr ⟨rfl, fun call hcall => ?_⟩
      rcases List.mem_cons.mp hcall with rfl | hcall
      · exact Signal.noConfusion
      · rcases List.mem_append.mp hcall with hcall | hcall
        · exact hbelow call hcall
        · exact hcalls call hcall

theorem eq_stopped_iff (htour : tree.Tour visitor depth ids state calls ending final) :
    ending = .stopped ↔ ∃ call ∈ calls, call.answer = .stop := by
  rcases htour.ending_eq with ⟨rfl, before, last, rfl, hlast, _⟩ | ⟨rfl, hcalls⟩
  · simp [hlast]
  · simpa using hcalls

theorem eq_finished_iff (htour : tree.Tour visitor depth ids state calls ending final) :
    ending = .finished ↔ ∀ call ∈ calls, call.answer ≠ .stop := by
  rcases htour.ending_eq with ⟨rfl, before, last, rfl, hlast, _⟩ | ⟨rfl, hcalls⟩
  · simp [hlast]
  · simpa using hcalls

theorem eq_nil_of_stop (htour : tree.Tour visitor depth ids state calls ending final)
    {before after : List Call} {call : Call} (hcalls : calls = before ++ call :: after)
    (hstop : call.answer = .stop) : after = [] := by
  rcases htour.ending_eq with ⟨_, first, last, hfirst, _, hnot⟩ | ⟨_, hnot⟩
  · rcases List.eq_nil_or_concat after with hnil | ⟨others, other, rfl⟩
    · exact hnil
    · rw [hcalls, List.concat_eq_append, ← List.cons_append, ← List.append_assoc] at hfirst
      have hmem : call ∈ first := by
        rw [← (List.append_inj' hfirst rfl).1]
        simp
      exact absurd hstop (hnot call hmem)
  · exact absurd hstop (hnot call (by simp [hcalls]))

theorem map_node (htour : tree.Tour visitor depth ids state calls ending final)
    (hproceed : ∀ id depth state, (visitor id depth state).1 = .proceed)
    {forest : Forest (NodeId × Node P)} (hspan : tree.Spans ids forest) :
    ending = .finished ∧ calls.map (·.node) = forest.numbers := by
  have hnot : ∀ {id depth state signal after}, visitor id depth state = (signal, after) →
      signal = .proceed := by
    intro id depth state signal after hcall
    rw [← hproceed id depth state, hcall]
  induction htour generalizing forest with
  | nil =>
    cases hspan
    exact ⟨rfl, rfl⟩
  | stop call => cases hnot call
  | skip call => cases hnot call
  | stopBelow _ _ ih =>
    cases hspan with
    | cons found down _ =>
      rw [children_of_find? found] at ih
      cases (ih down).1
  | proceed _ _ _ ihdown ihright =>
    cases hspan with
    | cons found down right =>
      rw [children_of_find? found] at ihdown
      obtain ⟨rfl, hright⟩ := ihright right
      exact ⟨rfl, by simp [(ihdown down).2, hright]⟩

end Tour

/-- Every row of nodes has a tour, with no more calls than there are nodes at and below the row. -/
theorem Spans.exists_tour {tree : Tree P} (visitor : NodeId → Nat → σ → Signal × σ)
    {ids : List NodeId} {forest : Forest (NodeId × Node P)} (hspan : tree.Spans ids forest)
    (depth : Nat) (state : σ) :
    ∃ calls ending final, tree.Tour visitor depth ids state calls ending final ∧
      calls.length ≤ forest.size := by
  induction hspan generalizing depth state with
  | nil => exact ⟨_, _, _, .nil, Nat.le_refl _⟩
  | @cons id node rest below others found _ _ ihdown ihright =>
    rw [← children_of_find? found] at ihdown
    rw [Forest.size]
    cases hcall : visitor id depth state with
    | mk signal after =>
      cases signal with
      | stop => exact ⟨_, _, _, .stop hcall, by simp⟩
      | skip =>
        obtain ⟨calls, ending, final, htour, hlength⟩ := ihright depth after
        exact ⟨_, _, _, .skip hcall htour, by simp only [List.length_cons]; omega⟩
      | proceed =>
        obtain ⟨calls, ending, between, htour, hlength⟩ := ihdown (depth + 1) after
        rcases htour.ending_eq with ⟨rfl, _⟩ | ⟨rfl, _⟩
        · exact ⟨_, _, _, .stopBelow hcall htour, by simp only [List.length_cons]; omega⟩
        · obtain ⟨calls', ending, final, htour', hlength'⟩ := ihright depth between
          refine ⟨_, _, _, .proceed hcall htour htour', ?_⟩
          simp only [List.length_cons, List.length_append]
          omega

/-- A walk makes exactly the calls of the tour from its start, in their order and with the same
states in between, and ends as the tour ends. A visitor that leaves nothing out is called on the
node and on all below it, once on each. -/
theorem walk_eq_tour {good : P → Prop} {tree : Tree P} (hreach : Reachable good tree)
    {start : NodeId} (hstart : tree.contains start = true)
    (visitor : NodeId → Nat → σ → Signal × σ) (state : σ) :
    (∃ calls ending final, tree.Tour visitor 0 [start] state calls ending final ∧
      (∀ calls' ending' final', tree.Tour visitor 0 [start] state calls' ending' final' →
        calls' = calls ∧ ending' = ending ∧ final' = final) ∧
      tree.walk start visitor state = (ending, final) ∧
      tree.walk start (logged visitor) (state, []) = (ending, final, calls) ∧
      (ending = .stopped ↔ ∃ call ∈ calls, call.answer = .stop) ∧
      (ending = .finished ↔ ∀ call ∈ calls, call.answer ≠ .stop) ∧
      (∀ before call after, calls = before ++ call :: after → call.answer = .stop → after = []) ∧
      ((∀ id depth state, (visitor id depth state).1 = .proceed) →
        calls.map (·.node) = tree.descendants start)) ∧
    (tree.descendants start).Nodup ∧
    ∀ id, id ∈ tree.descendants start ↔
      tree.contains id = true ∧ tree.isAbove start id = true := by
  have h := hreach.linked
  obtain ⟨node, hnode⟩ := contains_iff.mp hstart
  have hspan := h.spans_singleton hnode
  have hsize := h.size_le_bound hspan (apart_singleton tree start)
  have hids : ∀ id ∈ [start], tree.contains id = true := by
    intro id hid
    rwa [List.mem_singleton.mp hid]
  obtain ⟨calls, ending, final, htour, hlength⟩ := hspan.exists_tour visitor 0 state
  have hroom := Nat.le_trans hlength hsize
  refine ⟨⟨calls, ending, final, htour, ?_, ?_, ?_, htour.eq_stopped_iff, htour.eq_finished_iff, ?_,
    ?_⟩, h.nodup_descendants hstart, h.mem_descendants_iff hstart⟩
  · intro calls' ending' final' htour'
    exact htour.unique h hids htour'
  · exact htour.walkOver_row h hids hroom
  · exact (htour.log []).walkOver_row h hids hroom
  · intro before call after
    exact htour.eq_nil_of_stop
  · intro hproceed
    rw [(htour.map_node hproceed hspan).2, hspan.descendants_eq hsize]

private def atlas : Tree Nat :=
  ofOutline ⟨⟨some "atlas", 0⟩,
    .cons ⟨some "maps", 1⟩ (.cons ⟨some "coast", 2⟩ .nil .nil)
      (.cons ⟨some "index", 3⟩ (.cons ⟨some "names", 4⟩ .nil (.cons ⟨some "rivers", 5⟩ .nil .nil))
        (.cons ⟨some "notes", 6⟩ .nil .nil))⟩

/-- Leaves out what is below the node of number 1 and stops at the fourth call. -/
private def fourthCall (id : NodeId) (_depth : Nat) (seen : Nat) : Signal × Nat :=
  (if seen = 3 then .stop else if id = 1 then .skip else .proceed, seen + 1)

theorem walk_eq_tour_atlas :
    Reachable (fun _ => True) atlas ∧ atlas.contains root = true ∧
    atlas.Tour fourthCall 0 [root] 0
      [⟨0, 0, .proceed⟩, ⟨1, 1, .skip⟩, ⟨3, 1, .proceed⟩, ⟨4, 2, .stop⟩] .stopped 4 ∧
    atlas.walk root fourthCall 0 = (.stopped, 4) := by
  have hreach : Reachable (fun _ => True) atlas := reachable_ofOutline _ trivial fun _ _ => trivial
  have hroot : atlas.contains root = true := rfl
  obtain ⟨⟨calls, ending, final, htour, _, hwalk, hlog, _⟩, _⟩ :=
    walk_eq_tour hreach hroot fourthCall 0
  have hseen : atlas.walk root (logged fourthCall) (0, []) = (.stopped, 4,
      [⟨0, 0, .proceed⟩, ⟨1, 1, .skip⟩, ⟨3, 1, .proceed⟩, ⟨4, 2, .stop⟩]) := rfl
  rw [hseen] at hlog
  cases hlog
  exact ⟨hreach, hroot, htour, hwalk⟩

end Tree

end Conform
