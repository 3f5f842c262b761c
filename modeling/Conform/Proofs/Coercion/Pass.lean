import Conform.Coercion.Pass
import Conform.Proofs.Coercion.Leaf
import Conform.Proofs.Tree.Payloads
import Conform.Proofs.Tree.Visits
/-!
# Passes over requests

A pass changes the request that it walks over. Still every leaf ends as if it
had been coerced alone, on the request as it was: what the pass does to the
leaves before is out of sight for the entry, the path and the payload of the
next one. The first leaf that cannot be coerced ends the pass.
-/

namespace Conform

open Conform.Tree (root SameFrame visitEach)

namespace Schema

variable {atlas : Atlas} {schema : Schema} {zone : Zone} {origin request : Request}

/-- What a leaf is to hold after coercion, or why it cannot be coerced. A leaf without an entry
keeps what it holds. -/
def leafOutcome (atlas : Atlas) (schema : Schema) (zone : Zone) (request : Request) (id : NodeId) :
    Except Halt (Option Attribute) :=
  match schema.outcome? atlas zone request id with
  | none => .ok (request.payload? id)
  | some (.ok coerced) => .ok (some coerced)
  | some (.error halt) => .error halt

theorem leafOutcome_congr (hframe : request.SameFrame origin) {id : NodeId}
    (hpayload : request.payload? id = origin.payload? id) :
    schema.leafOutcome atlas zone request id = schema.leafOutcome atlas zone origin id := by
  have houtcome : schema.outcome? atlas zone request id = schema.outcome? atlas zone origin id := by
    rw [outcome?, outcome?, counterpart?, counterpart?, hframe.pathFrom?, hpayload]
  rw [leafOutcome, leafOutcome, houtcome, hpayload]

theorem visit_inner {id : NodeId} (hinner : ¬request.isLeaf id = true) (depth : Nat) (pass : Pass) :
    schema.visit atlas zone request id depth pass = (.proceed, request, pass) := by
  rw [visit, if_neg hinner]

theorem visit_leaf_ok {id : NodeId} (hleaf : request.isLeaf id = true) {payload? : Option Attribute}
    (houtcome : schema.leafOutcome atlas zone request id = .ok payload?) (depth : Nat) (pass : Pass) :
    ∃ changed later, schema.visit atlas zone request id depth pass = (.proceed, changed, later) ∧
      later.halt? = pass.halt? ∧
      ∀ other, changed.payload? other = if other = id then payload? else request.payload? other := by
  rw [visit, if_pos hleaf]
  rw [leafOutcome] at houtcome
  cases hresult : schema.outcome? atlas zone request id with
  | none =>
    rw [hresult] at houtcome
    cases houtcome
    refine ⟨request, pass, rfl, rfl, fun other => ?_⟩
    split
    · next hother => rw [hother]
    · rfl
  | some result =>
    rw [hresult] at houtcome
    cases result with
    | error halt => cases houtcome
    | ok coerced =>
      cases houtcome
      refine ⟨request.updatePayload id fun _ => coerced, { pass with coerced := pass.coerced + 1 },
        rfl, rfl, fun other => ?_⟩
      have hheld : ∃ held, request.payload? id = some held := by
        rw [outcome?] at hresult
        obtain ⟨_, _, hresult⟩ := Option.bind_eq_some_iff.mp hresult
        obtain ⟨held, hheld, _⟩ := Option.bind_eq_some_iff.mp hresult
        exact ⟨held, hheld⟩
      obtain ⟨held, hheld⟩ := hheld
      rw [Tree.payload?_updatePayload, hheld]
      rfl

theorem visit_leaf_error {id : NodeId} (hleaf : request.isLeaf id = true) {halt : Halt}
    (houtcome : schema.leafOutcome atlas zone request id = .error halt) (depth : Nat) (pass : Pass) :
    schema.visit atlas zone request id depth pass =
      (.stop, request, { pass with halt? := some halt }) := by
  rw [visit, if_pos hleaf]
  rw [leafOutcome] at houtcome
  cases hresult : schema.outcome? atlas zone request id with
  | none =>
    rw [hresult] at houtcome
    cases houtcome
  | some result =>
    rw [hresult] at houtcome
    cases result with
    | ok coerced => cases houtcome
    | error halt =>
      cases houtcome
      rfl

theorem plain_visit (atlas : Atlas) (schema : Schema) (zone : Zone) :
    Tree.Plain (schema.visit atlas zone) where
  ne_skip request id depth pass := by
    rw [visit]
    split
    · split <;> simp
    · simp
  sameFrame request id depth pass := by
    rw [visit]
    split
    · split
      · exact .refl request
      · next coerced _ => exact .updatePayload request id fun _ => coerced
      · exact .refl request
    · exact .refl request

theorem visitEach_ok {calls : List (NodeId × Nat)} {leaves : List NodeId}
    (hleaves : (calls.map (·.1)).filter origin.isLeaf = leaves) (hnodup : (calls.map (·.1)).Nodup)
    (hok : ∀ leaf ∈ leaves, ∃ payload?, schema.leafOutcome atlas zone origin leaf = .ok payload?)
    (hframe : request.SameFrame origin)
    (hheld : ∀ id ∈ calls.map (·.1), request.payload? id = origin.payload? id) (pass : Pass) :
    ∃ changed later,
      visitEach (schema.visit atlas zone) calls request pass = (.finished, changed, later) ∧
      later.halt? = pass.halt? ∧
      (∀ leaf ∈ leaves, schema.leafOutcome atlas zone origin leaf = .ok (changed.payload? leaf)) ∧
      ∀ other, other ∉ leaves → changed.payload? other = request.payload? other := by
  induction calls generalizing leaves request pass with
  | nil =>
    subst hleaves
    exact ⟨request, pass, rfl, rfl, fun _ hleaf => by simp at hleaf, fun _ _ => rfl⟩
  | cons call rest ih =>
    obtain ⟨id, depth⟩ := call
    obtain ⟨hnotin, hnodup⟩ := List.nodup_cons.mp hnodup
    have hid : request.payload? id = origin.payload? id := hheld id List.mem_cons_self
    have hrest : ∀ other ∈ rest.map (·.1), request.payload? other = origin.payload? other :=
      fun other hother => hheld other (List.mem_cons_of_mem _ hother)
    simp only [List.map_cons, List.filter_cons] at hleaves
    rw [visitEach]
    by_cases hleaf : origin.isLeaf id = true
    · rw [if_pos hleaf] at hleaves
      subst hleaves
      obtain ⟨payload?, houtcome⟩ := hok id List.mem_cons_self
      have hnow : schema.leafOutcome atlas zone request id = .ok payload? := by
        rw [leafOutcome_congr hframe hid, houtcome]
      have hleaf' : request.isLeaf id = true := by rwa [hframe.isLeaf]
      obtain ⟨changed, later, hvisit, hfailure, hpayload⟩ := visit_leaf_ok hleaf' hnow depth pass
      have hsame := (plain_visit atlas schema zone).sameFrame request id depth pass
      rw [hvisit] at hsame
      have hchanged : ∀ other ∈ rest.map (·.1), changed.payload? other = origin.payload? other := by
        intro other hother
        have hne : other ≠ id := fun heq => hnotin (heq ▸ hother)
        rw [hpayload, if_neg hne, hrest other hother]
      obtain ⟨final, last, hwalk, hlast, hdone, hkept⟩ := ih rfl hnodup
        (fun leaf hleaf => hok leaf (List.mem_cons_of_mem _ hleaf)) (hsame.trans hframe) hchanged
        later
      have hidrest : id ∉ (rest.map (·.1)).filter origin.isLeaf := fun hmem =>
        hnotin (List.mem_of_mem_filter hmem)
      refine ⟨final, last, ?_, hlast.trans hfailure, ?_, ?_⟩
      · simp only [hvisit, hwalk]
      · intro leaf hmem
        rcases List.mem_cons.mp hmem with rfl | hmem
        · rw [hkept leaf hidrest, hpayload, if_pos rfl, houtcome]
        · exact hdone leaf hmem
      · intro other hother
        rw [List.mem_cons, not_or] at hother
        rw [hkept other hother.2, hpayload, if_neg hother.1]
    · rw [if_neg hleaf] at hleaves
      have hinner : ¬request.isLeaf id = true := by rwa [hframe.isLeaf]
      obtain ⟨final, last, hwalk, hlast, hdone, hkept⟩ := ih hleaves hnodup hok hframe hrest pass
      exact ⟨final, last, by simp only [visit_inner hinner, hwalk], hlast, hdone, hkept⟩

/-- Calls that come to a leaf that cannot be coerced end there. -/
theorem visitEach_error {calls : List (NodeId × Nat)} {before after : List NodeId} {leaf : NodeId}
    {halt : Halt}
    (hleaves : (calls.map (·.1)).filter origin.isLeaf = before ++ leaf :: after)
    (hnodup : (calls.map (·.1)).Nodup)
    (hok : ∀ earlier ∈ before,
      ∃ payload?, schema.leafOutcome atlas zone origin earlier = .ok payload?)
    (hfail : schema.leafOutcome atlas zone origin leaf = .error halt) (pass : Pass) :
    ∃ changed later,
      visitEach (schema.visit atlas zone) calls origin pass = (.stopped, changed, later) ∧
      later.halt? = some halt ∧
      (∀ earlier ∈ before,
        schema.leafOutcome atlas zone origin earlier = .ok (changed.payload? earlier)) ∧
      ∀ other, other ∉ before → changed.payload? other = origin.payload? other := by
  obtain ⟨ids, ids', hids, hbefore, hids'⟩ := List.filter_eq_append_iff.mp hleaves
  obtain ⟨inner, ids', rfl, hinner, hleaf, _⟩ := List.filter_eq_cons_iff.mp hids'
  rw [← List.append_assoc] at hids
  obtain ⟨first, last, rfl, hfirst, hlast⟩ := List.map_eq_append_iff.mp hids
  obtain ⟨call, last, rfl, hcall, _⟩ := List.map_eq_cons_iff.mp hlast
  have hearlier : (first.map (·.1)).filter origin.isLeaf = before := by
    rw [hfirst, List.filter_append, hbefore, List.filter_eq_nil_iff.mpr hinner, List.append_nil]
  rw [List.map_append, List.nodup_append] at hnodup
  obtain ⟨hnodup, _, hdisjoint⟩ := hnodup
  obtain ⟨changed, later, hwalk, hlater, hdone, hkept⟩ :=
    visitEach_ok hearlier hnodup hok (.refl origin) (fun _ _ => rfl) pass
  have hframe := (plain_visit atlas schema zone).sameFrame_visitEach first origin pass
  rw [hwalk] at hframe
  have hnotin : leaf ∉ before := by
    intro hmem
    rw [← hearlier] at hmem
    exact hdisjoint leaf (List.mem_of_mem_filter hmem) leaf (by simp [hcall]) rfl
  have hnow : schema.leafOutcome atlas zone changed leaf = .error halt := by
    rw [leafOutcome_congr hframe (hkept leaf hnotin), hfail]
  have hleaf' : changed.isLeaf leaf = true := by rwa [hframe.isLeaf]
  obtain ⟨id, depth⟩ := call
  obtain rfl : id = leaf := hcall
  refine ⟨changed, { later with halt? := some halt }, ?_, rfl, hdone, hkept⟩
  rw [Tree.visitEach_append, hwalk]
  simp only [visitEach, visit_leaf_error hleaf' hnow depth later]

/-! ## Whole passes -/

/-- A pass calls its visitor once on every node, on the leaves in their order. -/
theorem conformInPlace_eq (hlinked : request.Linked) (atlas : Atlas) (schema : Schema)
    (settings : Settings) :
    ∃ calls : List (NodeId × Nat), (calls.map (·.1)).Nodup ∧
      (calls.map (·.1)).filter request.isLeaf = request.leaves ∧
      schema.conformInPlace atlas settings request =
        ((visitEach (schema.visit atlas settings.zone) calls request .fresh).2.1,
          (visitEach (schema.visit atlas settings.zone) calls request .fresh).2.2.result) := by
  obtain ⟨calls, hcalls, hwalk⟩ := (plain_visit atlas schema settings.zone).revise_eq hlinked .fresh
  have hnodup := hlinked.nodup_descendants hlinked.contains_root
  refine ⟨calls, ?_, ?_, ?_⟩
  · rwa [hcalls]
  · rw [hcalls, Tree.leaves]
  · rw [conformInPlace, coerceFrom, hwalk]

theorem conformInPlace_sameFrame (hlinked : request.Linked) (atlas : Atlas) (schema : Schema)
    (settings : Settings) : (schema.conformInPlace atlas settings request).1.SameFrame request := by
  obtain ⟨calls, _, _, hpass⟩ := conformInPlace_eq hlinked atlas schema settings
  rw [hpass]
  exact (plain_visit atlas schema settings.zone).sameFrame_visitEach calls request .fresh

theorem conformInPlace_ok (hlinked : request.Linked) (settings : Settings)
    (hok : ∀ leaf ∈ request.leaves,
      ∃ payload?, schema.leafOutcome atlas settings.zone request leaf = .ok payload?) :
    (schema.conformInPlace atlas settings request).2 = .ok () ∧
      (∀ leaf ∈ request.leaves, schema.leafOutcome atlas settings.zone request leaf =
        .ok ((schema.conformInPlace atlas settings request).1.payload? leaf)) ∧
      ∀ id, id ∉ request.leaves →
        (schema.conformInPlace atlas settings request).1.payload? id = request.payload? id := by
  obtain ⟨calls, hnodup, hleaves, hpass⟩ := conformInPlace_eq hlinked atlas schema settings
  obtain ⟨changed, later, hwalk, hlater, hdone, hkept⟩ :=
    visitEach_ok hleaves hnodup hok (.refl request) (fun _ _ => rfl) .fresh
  rw [hpass, hwalk]
  refine ⟨?_, hdone, hkept⟩
  rw [Pass.result, hlater]
  rfl

theorem conformInPlace_error (hlinked : request.Linked) (settings : Settings)
    {before after : List NodeId} {leaf : NodeId} {halt : Halt}
    (hleaves : request.leaves = before ++ leaf :: after)
    (hok : ∀ earlier ∈ before,
      ∃ payload?, schema.leafOutcome atlas settings.zone request earlier = .ok payload?)
    (hfail : schema.leafOutcome atlas settings.zone request leaf = .error halt) :
    (schema.conformInPlace atlas settings request).2 = .error halt ∧
      (∀ earlier ∈ before, schema.leafOutcome atlas settings.zone request earlier =
        .ok ((schema.conformInPlace atlas settings request).1.payload? earlier)) ∧
      ∀ id, id ∉ before →
        (schema.conformInPlace atlas settings request).1.payload? id = request.payload? id := by
  obtain ⟨calls, hnodup, hcalls, hpass⟩ := conformInPlace_eq hlinked atlas schema settings
  obtain ⟨changed, later, hwalk, hlater, hdone, hkept⟩ :=
    visitEach_error (hcalls.trans hleaves) hnodup hok hfail .fresh
  rw [hpass, hwalk]
  refine ⟨?_, hdone, hkept⟩
  rw [Pass.result, hlater]

/-- Either every leaf can be coerced, or there is a first one that cannot. -/
theorem leafOutcome_ok_or_first (atlas : Atlas) (schema : Schema) (zone : Zone)
    (request : Request) (ids : List NodeId) :
    (∀ id ∈ ids, ∃ payload?, schema.leafOutcome atlas zone request id = .ok payload?) ∨
      ∃ before id after halt, ids = before ++ id :: after ∧
        (∀ earlier ∈ before,
          ∃ payload?, schema.leafOutcome atlas zone request earlier = .ok payload?) ∧
        schema.leafOutcome atlas zone request id = .error halt := by
  induction ids with
  | nil => exact .inl fun _ hid => absurd hid List.not_mem_nil
  | cons id rest ih =>
    cases houtcome : schema.leafOutcome atlas zone request id with
    | error halt =>
      exact .inr ⟨[], id, rest, halt, rfl, fun _ hid => absurd hid List.not_mem_nil, houtcome⟩
    | ok payload? =>
      rcases ih with hall | ⟨before, first, after, halt, rfl, hbefore, hfail⟩
      · refine .inl fun other hother => ?_
        rcases List.mem_cons.mp hother with rfl | hother
        · exact ⟨payload?, houtcome⟩
        · exact hall other hother
      · refine .inr ⟨id :: before, first, after, halt, rfl, fun other hother => ?_, hfail⟩
        rcases List.mem_cons.mp hother with rfl | hother
        · exact ⟨payload?, houtcome⟩
        · exact hbefore other hother

theorem conformInPlace_inner (hlinked : request.Linked) (atlas : Atlas) (schema : Schema)
    (settings : Settings) {id : NodeId} (hinner : id ∉ request.leaves) :
    (schema.conformInPlace atlas settings request).1.payload? id = request.payload? id := by
  rcases leafOutcome_ok_or_first atlas schema settings.zone request request.leaves with
    hok | ⟨before, leaf, after, halt, hleaves, hok, hfail⟩
  · exact (conformInPlace_ok hlinked settings hok).2.2 id hinner
  · refine (conformInPlace_error hlinked settings hleaves hok hfail).2.2 id fun hmem => hinner ?_
    rw [hleaves]
    exact List.mem_append_left _ hmem

theorem conform_eq (atlas : Atlas) (schema : Schema) (settings : Settings) (request : Request) :
    schema.conform atlas settings request =
      match (schema.conformInPlace atlas settings request).2 with
      | .ok () => schema.conformInPlace atlas settings request
      | .error halt => (request, .error halt) := by
  rw [conform]
  obtain ⟨coerced, result⟩ := schema.conformInPlace atlas settings request
  cases result <;> rfl

theorem conform_snd (atlas : Atlas) (schema : Schema) (settings : Settings) (request : Request) :
    (schema.conform atlas settings request).2 = (schema.conformInPlace atlas settings request).2 := by
  rw [conform_eq]
  cases hresult : (schema.conformInPlace atlas settings request).2 <;> simp [hresult]

/-- What a pass leaves behind is decided leaf by leaf on the request as it was: up to the first leaf
that cannot be coerced every leaf gets its outcome, and from there on nothing is touched. -/
theorem conform_leaf_by_leaf {good : Attribute → Prop} (hreachable : Tree.Reachable good request)
    (atlas : Atlas) (schema : Schema) (settings : Settings) :
    let outcome := schema.leafOutcome atlas settings.zone request
    let inPlace := schema.conformInPlace atlas settings request
    let whole := schema.conform atlas settings request
    (request.leaves.Nodup ∧ ∀ id, id ∈ request.leaves ↔
      request.contains id = true ∧ request.isLeaf id = true) ∧
    ((∀ leaf ∈ request.leaves, ∃ payload?, outcome leaf = .ok payload?) →
      inPlace.2 = .ok () ∧ ∀ leaf ∈ request.leaves, outcome leaf = .ok (inPlace.1.payload? leaf)) ∧
    (∀ before leaf after halt, request.leaves = before ++ leaf :: after →
      (∀ earlier ∈ before, ∃ payload?, outcome earlier = .ok payload?) →
      outcome leaf = .error halt →
      inPlace.2 = .error halt ∧
        (∀ earlier ∈ before, outcome earlier = .ok (inPlace.1.payload? earlier)) ∧
        ∀ later ∈ leaf :: after, inPlace.1.payload? later = request.payload? later) ∧
    inPlace.1.SameFrame request ∧
    (∀ id, request.isLeaf id = false → inPlace.1.payload? id = request.payload? id) ∧
    whole.2 = inPlace.2 ∧
    (whole.2 = .ok () → whole.1 = inPlace.1) ∧
    (∀ halt, whole.2 = .error halt → whole.1 = request) := by
  have hlinked := hreachable.linked
  intro outcome inPlace whole
  refine ⟨⟨hlinked.nodup_leaves, hlinked.mem_leaves_iff⟩, ?_, ?_, ?_, ?_, ?_, ?_, ?_⟩
  · intro hok
    obtain ⟨hresult, hdone, _⟩ := conformInPlace_ok hlinked settings hok
    exact ⟨hresult, hdone⟩
  · intro before leaf after halt hleaves hok hfail
    obtain ⟨hresult, hdone, hkept⟩ := conformInPlace_error hlinked settings hleaves hok hfail
    refine ⟨hresult, hdone, fun later hlater => hkept later fun hmem => ?_⟩
    have hnodup := hlinked.nodup_leaves
    rw [hleaves, List.nodup_append] at hnodup
    exact hnodup.2.2 later hmem later hlater rfl
  · exact conformInPlace_sameFrame hlinked atlas schema settings
  · intro id hinner
    refine conformInPlace_inner hlinked atlas schema settings fun hmem => ?_
    have hleaf := ((hlinked.mem_leaves_iff id).mp hmem).2
    rw [hinner] at hleaf
    cases hleaf
  all_goals
    simp only [whole, inPlace, conform_eq]
    cases hresult : (schema.conformInPlace atlas settings request).2 <;> simp [hresult]

private def visitSchema : Schema :=
  .ofOutline ⟨⟨some "visit", .blank⟩,
    .cons ⟨some "day", .ofKind .date⟩ .nil (.cons ⟨some "guests", .ofKind .number⟩ .nil .nil)⟩

private def visitRequest : Request :=
  .ofOutline ⟨⟨some "visit", .blank⟩,
    .cons ⟨some "day", .number (.integer 0)⟩ .nil
      (.cons ⟨some "guests", .boolean true⟩ .nil (.cons ⟨some "note", .string "late"⟩ .nil .nil))⟩

theorem conform_leaf_by_leaf_visit :
    Tree.Reachable (fun _ => True) visitRequest ∧
    (visitSchema.conformInPlace .london ⟨.utc⟩ visitRequest).2 =
      .error (.failure (.incompatible .boolean .number)) ∧
    (visitSchema.conformInPlace .london ⟨.utc⟩ visitRequest).1.payload? 1 = some (.date 0) ∧
    (visitSchema.conformInPlace .london ⟨.utc⟩ visitRequest).1.payload? 3 = some (.string "late") ∧
    (visitSchema.conform .london ⟨.utc⟩ visitRequest).1 = visitRequest := by
  have hreachable : Tree.Reachable (fun _ => True) visitRequest :=
    Tree.reachable_ofOutline _ trivial fun _ _ => trivial
  obtain ⟨_, _, hfirst, _, _, hresult, _, hdropped⟩ :=
    conform_leaf_by_leaf hreachable .london visitSchema ⟨.utc⟩
  have hday : visitSchema.leafOutcome .london .utc visitRequest 1 = .ok (some (.date 0)) := rfl
  have hbefore : ∀ earlier ∈ [1],
      ∃ payload?, visitSchema.leafOutcome .london .utc visitRequest earlier = .ok payload? := by
    intro earlier hearlier
    rw [List.mem_singleton.mp hearlier]
    exact ⟨_, hday⟩
  obtain ⟨hfailed, hdone, hkept⟩ := hfirst [1] 2 [3] _ rfl hbefore rfl
  refine ⟨hreachable, hfailed, ?_, hkept 3 (by simp), hdropped _ (hresult.trans hfailed)⟩
  exact (Except.ok.inj ((hdone 1 (List.mem_singleton_self 1)).symm.trans hday))

/-! ## Leaves of a coerced request -/

theorem counterpart?_eq_some_iff {id : NodeId} {path : Path} {entry : Entry} :
    schema.counterpart? request id = some (path, entry) ↔
      request.pathFrom? root id = some path ∧ schema.payloadAt? path = some entry := by
  simp only [counterpart?, Option.bind_eq_bind, Option.bind_eq_some_iff, Option.pure_def,
    Option.some.injEq, Prod.mk.injEq]
  constructor
  · rintro ⟨path, hpath, entry, hentry, rfl, rfl⟩
    exact ⟨hpath, hentry⟩
  · rintro ⟨hpath, hentry⟩
    exact ⟨path, hpath, entry, hentry, rfl, rfl⟩

theorem counterpart?_congr (hframe : request.SameFrame origin) (id : NodeId) :
    schema.counterpart? request id = schema.counterpart? origin id := by
  rw [counterpart?, counterpart?, hframe.pathFrom?]

theorem leafOutcome_of_counterpart?_none {id : NodeId}
    (h : schema.counterpart? request id = none) :
    schema.leafOutcome atlas zone request id = .ok (request.payload? id) := by
  simp [leafOutcome, outcome?, h]

theorem leafOutcome_eq_conform {id : NodeId} {path : Path} {entry : Entry} {former : Attribute}
    (hpath : request.pathFrom? root id = some path) (hentry : schema.payloadAt? path = some entry)
    (hformer : request.payload? id = some former) :
    schema.leafOutcome atlas zone request id = (entry.conform atlas zone path former).map some := by
  have houtcome : schema.outcome? atlas zone request id =
      some (entry.conform atlas zone path former) := by
    simp only [outcome?, counterpart?, hpath, hentry, hformer, Option.bind_eq_bind,
      Option.bind_some, Option.pure_def]
  rw [leafOutcome, houtcome]
  cases entry.conform atlas zone path former <;> rfl

theorem leafOutcome_of_conform (hlinked : request.Linked) {settings : Settings}
    {conformed : Request} (hok : schema.conform atlas settings request = (conformed, .ok ())) :
    conformed.SameFrame request ∧ ∀ leaf ∈ request.leaves,
      schema.leafOutcome atlas settings.zone request leaf = .ok (conformed.payload? leaf) := by
  have hframe := conformInPlace_sameFrame hlinked atlas schema settings
  rw [conform_eq] at hok
  rcases leafOutcome_ok_or_first atlas schema settings.zone request request.leaves with
    hall | ⟨before, leaf, after, halt, hleaves, hbefore, hfail⟩
  · obtain ⟨hresult, hdone, _⟩ := conformInPlace_ok hlinked settings hall
    simp only [hresult] at hok
    rw [hok] at hframe hdone
    exact ⟨hframe, hdone⟩
  · obtain ⟨hresult, _, _⟩ := conformInPlace_error hlinked settings hleaves hbefore hfail
    simp only [hresult] at hok
    cases hok

theorem exists_leafOutcome_error (hlinked : request.Linked) {settings : Settings}
    {halt : Halt} (h : (schema.conform atlas settings request).2 = .error halt) :
    ∃ leaf ∈ request.leaves, schema.leafOutcome atlas settings.zone request leaf = .error halt := by
  rw [conform_eq] at h
  rcases leafOutcome_ok_or_first atlas schema settings.zone request request.leaves with
    hall | ⟨before, leaf, after, first, hleaves, hbefore, hfail⟩
  · obtain ⟨hresult, -, -⟩ := conformInPlace_ok hlinked settings hall
    simp [hresult] at h
  · obtain ⟨hresult, -, -⟩ := conformInPlace_error hlinked settings hleaves hbefore hfail
    simp only [hresult, Except.error.injEq] at h
    exact ⟨leaf, by simp [hleaves], h ▸ hfail⟩

theorem conform_error_of_leafOutcome {id : NodeId} {halt : Halt}
    (h : schema.leafOutcome atlas zone request id = .error halt) :
    ∃ path entry held, request.pathFrom? root id = some path ∧
      schema.payloadAt? path = some entry ∧ request.payload? id = some held ∧
      entry.conform atlas zone path held = .error halt := by
  cases hfound : schema.counterpart? request id with
  | none => simp [leafOutcome_of_counterpart?_none hfound] at h
  | some found =>
    obtain ⟨path, entry⟩ := found
    obtain ⟨hpath, hentry⟩ := counterpart?_eq_some_iff.mp hfound
    cases hheld : request.payload? id with
    | none => simp [leafOutcome, outcome?, hfound, hheld] at h
    | some held =>
      rw [leafOutcome_eq_conform hpath hentry hheld] at h
      refine ⟨path, entry, held, hpath, hentry, rfl, ?_⟩
      cases hconform : entry.conform atlas zone path held <;> simp_all [Except.map]

/-- Every leaf of a coerced request is as the entry at its place asks, and holds what became of what
it held. -/
theorem conform_meets_entries (hreachable : Tree.Reachable Attribute.Obtainable request)
    {settings : Settings} {conformed : Request}
    (hok : schema.conform atlas settings request = (conformed, .ok ())) {leaf : NodeId} {path : Path}
    {entry : Entry} (hcontains : conformed.contains leaf = true)
    (hleaf : conformed.isLeaf leaf = true) (hpath : conformed.pathFrom? root leaf = some path)
    (hentry : schema.payloadAt? path = some entry) :
    ∃ former coerced, request.payload? leaf = some former ∧
      conformed.payload? leaf = some coerced ∧ entry.Met atlas settings.zone former coerced := by
  have hlinked := hreachable.linked
  obtain ⟨hframe, hdone⟩ := leafOutcome_of_conform hlinked hok
  rw [hframe.contains] at hcontains
  rw [hframe.isLeaf] at hleaf
  rw [hframe.pathFrom?] at hpath
  have houtcome := hdone leaf ((hlinked.mem_leaves_iff leaf).mpr ⟨hcontains, hleaf⟩)
  obtain ⟨node, hnode⟩ := Tree.contains_iff.mp hcontains
  have hformer : request.payload? leaf = some node.payload := Tree.payload?_of_find? hnode
  rw [leafOutcome_eq_conform hpath hentry hformer] at houtcome
  cases hconform : entry.conform atlas settings.zone path node.payload with
  | error halt =>
    rw [hconform] at houtcome
    cases houtcome
  | ok coerced =>
    rw [hconform] at houtcome
    refine ⟨node.payload, coerced, hformer, (Except.ok.inj houtcome).symm, ?_⟩
    have hobtainable : node.payload.Obtainable := hreachable.carries leaf node hnode
    exact Entry.met_of_conform (fun _ hvalue => hobtainable.declared hvalue) hconform

private def opensEntry : Entry :=
  (Entry.ofKind .time).withOption Zone.optionName (.string "Europe/London")

private def shopSchema : Schema :=
  .ofOutline ⟨⟨some "shop", .blank⟩,
    .cons ⟨some "closed", ⟨some .date, some .set, .empty⟩⟩ .nil
      (.cons ⟨some "opens", opensEntry⟩ .nil .nil)⟩

private def closedDays : List Value :=
  [.integer 86400000, .float ⟨0x3fe0000000000000⟩, .integer 86400000]

private def shopRequest : Request :=
  .ofOutline ⟨⟨some "shop", .blank⟩,
    .cons ⟨some "closed", ⟨some .number, some .multiset, some (.array closedDays)⟩⟩ .nil
      (.cons ⟨some "opens", .number (.integer 1719792000000)⟩ .nil .nil)⟩

private def shopConformed : Request :=
  .ofOutline ⟨⟨some "shop", .blank⟩,
    .cons ⟨some "closed", ⟨some .date, some .set,
        some (.array [.integer 86400000, .integer 0])⟩⟩ .nil
      (.cons ⟨some "opens", .time 1719788400000⟩ .nil .nil)⟩

theorem conform_meets_entries_shop :
    Tree.Reachable Attribute.Obtainable shopRequest ∧
    shopSchema.conform .london ⟨.utc⟩ shopRequest = (shopConformed, .ok ()) ∧
    (∃ former coerced, shopRequest.payload? 1 = some former ∧
      shopConformed.payload? 1 = some coerced ∧
      Entry.Met .london ⟨some .date, some .set, .empty⟩ .utc former coerced) ∧
    ∃ former coerced, shopRequest.payload? 2 = some former ∧
      shopConformed.payload? 2 = some coerced ∧ opensEntry.Met .london .utc former coerced := by
  have hreachable : Tree.Reachable Attribute.Obtainable shopRequest := by
    refine Tree.reachable_ofOutline _ .blank fun label hlabel => ?_
    have hmade : Attribute.multiple .number .multiset closedDays =
      .ok ⟨some .number, some .multiset, some (.array closedDays)⟩ := rfl
    rcases List.mem_pair.mp hlabel with rfl | rfl
    · exact .multiple hmade
    · exact .number _
  have hok : shopSchema.conform .london ⟨.utc⟩ shopRequest = (shopConformed, .ok ()) := rfl
  exact ⟨hreachable, hok, conform_meets_entries hreachable hok rfl rfl rfl rfl,
    conform_meets_entries hreachable hok rfl rfl rfl rfl⟩

end Schema

end Conform
