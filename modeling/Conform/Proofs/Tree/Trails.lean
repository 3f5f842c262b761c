import Conform.Proofs.Tree.Tours
/-!
# Trails

The walk that goes down by recursion when the visitor changes the tree on the
way: a call on a node, then the children that the node has after the call, then
the nodes to the right, each passed over when it has left the tree by its turn.
Such a walk need not end, so it is followed for a number of turns. The walk
over a list of what is to come takes the same turns.
-/

namespace Conform

universe u v

/-- The visitor that also notes its calls, each with the tree that it finds. -/
def noted {P : Type u} {σ : Type v} (visitor : Tree P → NodeId → Nat → σ → Signal × Tree P × σ)
    (tree : Tree P) (id : NodeId) (depth : Nat) (state : σ × List (Tree P × Call)) :
    Signal × Tree P × σ × List (Tree P × Call) :=
  let (answer, changed, after) := visitor tree id depth state.1
  (answer, changed, after, state.2 ++ [(tree, ⟨id, depth, answer⟩)])

theorem noted_eq {P : Type u} {σ : Type v}
    {visitor : Tree P → NodeId → Nat → σ → Signal × Tree P × σ} {id : NodeId} {depth : Nat}
    {here after : Tree P × σ} {signal : Signal}
    (call : visitor here.1 id depth here.2 = (signal, after)) (before : List (Tree P × Call)) :
    noted visitor here.1 id depth (here.2, before) =
      (signal, after.1, after.2, before ++ [(here.1, ⟨id, depth, signal⟩)]) := by
  simp [noted, call]

namespace Tree

variable {P : Type u} {σ : Type v}

def notes (tree : Tree P) (budget : Nat) (start : NodeId)
    (visitor : Tree P → NodeId → Nat → σ → Signal × Tree P × σ) (state : σ) :
    List (Tree P × Call) :=
  (tree.revise budget start (noted visitor) (state, [])).2.2.2

/-- The recursive walk over a row of nodes of one depth, as far as it has been followed: the turns
taken, the calls with the trees they found, whether it ended or is left off there, and what it
leaves. -/
inductive Trail (visitor : Tree P → NodeId → Nat → σ → Signal × Tree P × σ) :
    Nat → List NodeId → Tree P × σ → Nat → List (Tree P × Call) → Ending → Tree P × σ → Prop
  | nil {depth : Nat} {here : Tree P × σ} : Trail visitor depth [] here 0 [] .finished here
  | leftOff {depth : Nat} {id : NodeId} {rest : List NodeId} {here : Tree P × σ} :
      Trail visitor depth (id :: rest) here 0 [] .exhausted here
  | gone {depth : Nat} {id : NodeId} {rest : List NodeId} {here final : Tree P × σ} {turns : Nat}
      {calls : List (Tree P × Call)} {ending : Ending} (absent : ¬here.1.contains id = true)
      (right : Trail visitor depth rest here turns calls ending final) :
      Trail visitor depth (id :: rest) here (turns + 1) calls ending final
  | stop {depth : Nat} {id : NodeId} {rest : List NodeId} {here final : Tree P × σ}
      (held : here.1.contains id = true)
      (call : visitor here.1 id depth here.2 = (.stop, final)) :
      Trail visitor depth (id :: rest) here 1 [(here.1, ⟨id, depth, .stop⟩)] .stopped final
  | skip {depth : Nat} {id : NodeId} {rest : List NodeId} {here after final : Tree P × σ}
      {turns : Nat} {calls : List (Tree P × Call)} {ending : Ending}
      (held : here.1.contains id = true)
      (call : visitor here.1 id depth here.2 = (.skip, after))
      (right : Trail visitor depth rest after turns calls ending final) :
      Trail visitor depth (id :: rest) here (turns + 1) ((here.1, ⟨id, depth, .skip⟩) :: calls)
        ending final
  | endBelow {depth : Nat} {id : NodeId} {rest : List NodeId} {here after final : Tree P × σ}
      {turns : Nat} {calls : List (Tree P × Call)} {ending : Ending}
      (held : here.1.contains id = true)
      (call : visitor here.1 id depth here.2 = (.proceed, after))
      (down : Trail visitor (depth + 1) (after.1.children id) after turns calls ending final)
      (unfinished : ending ≠ .finished) :
      Trail visitor depth (id :: rest) here (turns + 1) ((here.1, ⟨id, depth, .proceed⟩) :: calls)
        ending final
  | proceed {depth : Nat} {id : NodeId} {rest : List NodeId} {here after between final : Tree P × σ}
      {turns turns' : Nat} {below calls : List (Tree P × Call)} {ending : Ending}
      (held : here.1.contains id = true)
      (call : visitor here.1 id depth here.2 = (.proceed, after))
      (down : Trail visitor (depth + 1) (after.1.children id) after turns below .finished between)
      (right : Trail visitor depth rest between turns' calls ending final) :
      Trail visitor depth (id :: rest) here (turns + turns' + 1)
        ((here.1, ⟨id, depth, .proceed⟩) :: (below ++ calls)) ending final

namespace Trail

variable {visitor : Tree P → NodeId → Nat → σ → Signal × Tree P × σ} {depth : Nat}
  {ids : List NodeId} {here final : Tree P × σ} {turns : Nat} {calls : List (Tree P × Call)}
  {ending : Ending}

/-- Given as many steps as the trail has turns, the walk takes these turns, and given more it goes
on to the right once the row is finished. -/
theorem reviseOver_append (htrail : Trail visitor depth ids here turns calls ending final)
    {budget : Nat} (hroom : turns ≤ budget) (hleft : ending = .exhausted → turns = budget)
    (rest : List (NodeId × Nat)) :
    reviseOver visitor budget (ids.map (·, depth) ++ rest) here.1 here.2 =
      if ending = .finished then reviseOver visitor (budget - turns) rest final.1 final.2
      else (ending, final) := by
  induction htrail generalizing budget rest with
  | nil => simp
  | leftOff =>
    rw [← hleft rfl]
    rfl
  | @gone _ _ _ _ _ turns _ ending absent _ ih =>
    obtain ⟨room, rfl⟩ : ∃ room, budget = room + 1 := ⟨budget - 1, by omega⟩
    have hroom' : turns ≤ room := by omega
    have hleft' : ending = .exhausted → turns = room := fun hend => Nat.succ.inj (hleft hend)
    simp [reviseOver, absent, ih hroom' hleft' rest]
  | stop held call =>
    obtain ⟨room, rfl⟩ : ∃ room, budget = room + 1 := ⟨budget - 1, by omega⟩
    simp [reviseOver, held, call]
  | @skip _ _ _ _ _ _ turns _ ending held call _ ih =>
    obtain ⟨room, rfl⟩ : ∃ room, budget = room + 1 := ⟨budget - 1, by omega⟩
    have hroom' : turns ≤ room := by omega
    have hleft' : ending = .exhausted → turns = room := fun hend => Nat.succ.inj (hleft hend)
    simp [reviseOver, held, call, ih hroom' hleft' rest]
  | @endBelow depth _ rest' _ _ _ turns _ ending held call _ unfinished ih =>
    obtain ⟨room, rfl⟩ : ∃ room, budget = room + 1 := ⟨budget - 1, by omega⟩
    have hroom' : turns ≤ room := by omega
    have hleft' : ending = .exhausted → turns = room := fun hend => Nat.succ.inj (hleft hend)
    have hdown := ih hroom' hleft' (rest'.map (·, depth) ++ rest)
    simp [reviseOver, held, call, hdown, unfinished]
  | @proceed depth _ rest' _ _ _ _ turns turns' _ _ ending held call _ _ ihdown ihright =>
    obtain ⟨room, rfl⟩ : ∃ room, budget = room + 1 := ⟨budget - 1, by omega⟩
    have hroom' : turns ≤ room := by omega
    have hdown := ihdown hroom' (by simp) (rest'.map (·, depth) ++ rest)
    have hroom'' : turns' ≤ room - turns := by omega
    have hleft'' : ending = .exhausted → turns' = room - turns := by
      intro hend
      have hspent := hleft hend
      omega
    have hright := ihright hroom'' hleft'' rest
    have hsteps : room + 1 - (turns + turns' + 1) = room - turns - turns' := by omega
    simp [reviseOver, held, call, hdown, hright, hsteps]

theorem revise_eq {start : NodeId} {tree : Tree P} {state : σ}
    (htrail : Trail visitor 0 [start] (tree, state) turns calls ending final) {budget : Nat}
    (hroom : turns ≤ budget) (hleft : ending = .exhausted → turns = budget) :
    tree.revise budget start visitor state = (ending, final) := by
  have hwalk := htrail.reviseOver_append hroom hleft []
  rw [List.append_nil] at hwalk
  apply hwalk.trans
  split
  · next hfinished =>
    rw [hfinished]
    cases budget - turns <;> rfl
  · rfl

theorem noted (htrail : Trail visitor depth ids here turns calls ending final)
    (before : List (Tree P × Call)) :
    Trail (noted visitor) depth ids (here.1, here.2, before) turns calls ending
      (final.1, final.2, before ++ calls) := by
  induction htrail generalizing before with
  | nil =>
    rw [List.append_nil]
    exact .nil
  | leftOff =>
    rw [List.append_nil]
    exact .leftOff
  | gone absent _ ih => exact .gone absent (ih before)
  | stop held call => exact .stop held (noted_eq call before)
  | skip held call _ ih =>
    rw [List.append_cons]
    exact .skip held (noted_eq call before) (ih _)
  | endBelow held call _ unfinished ih =>
    rw [List.append_cons]
    exact .endBelow held (noted_eq call before) (ih _) unfinished
  | proceed held call _ _ ihdown ihright =>
    rw [List.append_cons, ← List.append_assoc]
    exact .proceed held (noted_eq call before) (ihdown _) (ihright _)

theorem notes_eq {start : NodeId} {tree : Tree P} {state : σ}
    (htrail : Trail visitor 0 [start] (tree, state) turns calls ending final) {budget : Nat}
    (hroom : turns ≤ budget) (hleft : ending = .exhausted → turns = budget) :
    tree.notes budget start visitor state = calls := by
  have hnoted := htrail.noted []
  rw [notes, hnoted.revise_eq hroom hleft]
  rfl

theorem contains_of_mem (htrail : Trail visitor depth ids here turns calls ending final) :
    ∀ call ∈ calls, call.1.contains call.2.node = true := by
  induction htrail with
  | nil => simp
  | leftOff => simp
  | gone _ _ ih => exact ih
  | stop held _ => simpa using held
  | skip held _ _ ih => simpa [held] using ih
  | endBelow held _ _ _ ih => simpa [held] using ih
  | proceed held _ _ _ ihdown ihright =>
    intro call hcall
    simp only [List.mem_cons, List.mem_append] at hcall
    rcases hcall with rfl | hcall | hcall
    · exact held
    · exact ihdown call hcall
    · exact ihright call hcall

end Trail

theorem exists_trail (visitor : Tree P → NodeId → Nat → σ → Signal × Tree P × σ) (budget depth : Nat)
    (ids : List NodeId) (here : Tree P × σ) :
    ∃ turns calls ending final, Trail visitor depth ids here turns calls ending final ∧
      turns ≤ budget ∧ (ending = .exhausted → turns = budget) := by
  induction budget using Nat.strongRecOn generalizing depth ids here with
  | ind budget ih =>
    cases ids with
    | nil => exact ⟨_, _, _, _, .nil, Nat.zero_le _, fun hend => nomatch hend⟩
    | cons id rest =>
      cases budget with
      | zero => exact ⟨_, _, _, _, .leftOff, Nat.le_refl _, fun _ => rfl⟩
      | succ room =>
        have hless : room < room + 1 := Nat.lt_succ_self room
        by_cases held : here.1.contains id = true
        · cases hcall : visitor here.1 id depth here.2 with
          | mk signal after =>
            cases signal with
            | stop =>
              exact ⟨_, _, _, _, .stop held hcall, Nat.le_add_left _ _, fun hend => nomatch hend⟩
            | skip =>
              obtain ⟨turns, calls, ending, final, htrail, hroom, hleft⟩ := ih room hless depth rest after
              exact ⟨_, _, _, _, .skip held hcall htrail, Nat.succ_le_succ hroom,
                fun hend => congrArg Nat.succ (hleft hend)⟩
            | proceed =>
              obtain ⟨turns, calls, ending, between, htrail, hroom, hleft⟩ :=
                ih room hless (depth + 1) (after.1.children id) after
              by_cases hend : ending = .finished
              · subst hend
                have hless' : room - turns < room + 1 := by omega
                obtain ⟨turns', calls', ending, final, htrail', hroom', hleft'⟩ :=
                  ih (room - turns) hless' depth rest between
                refine ⟨_, _, _, _, .proceed held hcall htrail htrail', by omega, fun hend => ?_⟩
                have hspent := hleft' hend
                omega
              · exact ⟨_, _, _, _, .endBelow held hcall htrail hend, Nat.succ_le_succ hroom,
                  fun hend => congrArg Nat.succ (hleft hend)⟩
        · obtain ⟨turns, calls, ending, final, htrail, hroom, hleft⟩ := ih room hless depth rest here
          exact ⟨_, _, _, _, .gone held htrail, Nat.succ_le_succ hroom,
            fun hend => congrArg Nat.succ (hleft hend)⟩

end Tree

end Conform
