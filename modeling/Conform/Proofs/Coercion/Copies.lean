import Conform.Proofs.Coercion.Pass
import Conform.Proofs.Tree.Copies
/-!
# Coercion of copies

A copy is numbered anew and has lost what inner nodes carried. A pass looks at
neither: what becomes of a leaf is decided by the names that lead to it and by
what it holds, and the leaves come in the same order. So a copy is coerced to
the copy of what the request is coerced to, or fails as the request does.
-/

namespace Conform

open Conform.Tree (root)

theorem map_const_eq_iff {α : Type} {first second : Except Halt Unit} {a b : α} :
    ((first.map fun _ => a) = second.map fun _ => b) ↔ first = second ∧ (first = .ok () → a = b) := by
  cases first <;> cases second <;> simp [Except.map]

namespace Schema

variable {atlas : Atlas} {request : Request}

/-- What becomes of a leaf that is at a place and holds something. -/
def outcomeAt (atlas : Atlas) (schema : Schema) (zone : Zone)
    (place : Option Path × Option Attribute) : Except Halt (Option Attribute) :=
  let outcome? : Option (Except Halt Attribute) := do
    let path ← place.1
    let entry ← schema.payloadAt? path
    let held ← place.2
    return entry.conform atlas zone path held
  match outcome? with
  | none => .ok place.2
  | some (.ok coerced) => .ok (some coerced)
  | some (.error halt) => .error halt

/-- Nothing but its place decides what becomes of a leaf. -/
theorem leafOutcome_eq_outcomeAt (atlas : Atlas) (schema : Schema) (zone : Zone)
    (request : Request) (id : NodeId) :
    schema.leafOutcome atlas zone request id = schema.outcomeAt atlas zone (request.place id) := by
  rw [leafOutcome, outcomeAt, outcome?, counterpart?, Tree.place]
  cases request.pathFrom? root id with
  | none => rfl
  | some path =>
    cases hentry : schema.payloadAt? path with
    | none => simp [hentry]
    | some entry =>
      cases request.payload? id with
      | none => simp [hentry]
      | some held => cases hresult : entry.conform atlas zone path held <;> simp [hentry, hresult]

theorem mapM_leafOutcome (hlinked : request.Linked) (atlas : Atlas) (schema : Schema)
    (settings : Settings) :
    request.leaves.mapM (schema.leafOutcome atlas settings.zone request) =
      (schema.conform atlas settings request).2.map fun _ =>
        request.leaves.map (schema.conform atlas settings request).1.payload? := by
  rw [conform_eq]
  rcases leafOutcome_ok_or_first atlas schema settings.zone request request.leaves with
    hok | ⟨before, leaf, after, halt, hleaves, hbefore, hfail⟩
  · obtain ⟨hresult, hdone, -⟩ := conformInPlace_ok hlinked settings hok
    simp only [hresult]
    generalize (schema.conformInPlace atlas settings request).1 = conformed at hdone ⊢
    generalize request.leaves = leaves at hdone ⊢
    induction leaves with
    | nil => rfl
    | cons leaf rest ih =>
      rw [List.mapM_cons, hdone leaf List.mem_cons_self,
        ih fun other hother => hdone other (List.mem_cons_of_mem _ hother)]
      rfl
  · obtain ⟨hresult, -, -⟩ := conformInPlace_error hlinked settings hleaves hbefore hfail
    simp only [hresult, hleaves]
    clear hleaves hresult
    induction before with
    | nil =>
      rw [List.nil_append, List.mapM_cons, hfail]
      rfl
    | cons first rest ih =>
      obtain ⟨payload?, hfirst⟩ := hbefore first List.mem_cons_self
      rw [List.cons_append, List.mapM_cons, hfirst,
        ih fun other hother => hbefore other (List.mem_cons_of_mem _ hother)]
      rfl

theorem mapM_leafOutcome_copy (hlinked : request.Linked) (atlas : Atlas) (schema : Schema)
    (zone : Zone) :
    (request.copy root).leaves.mapM (schema.leafOutcome atlas zone (request.copy root)) =
      request.leaves.mapM (schema.leafOutcome atlas zone request) := by
  have houtcome : ∀ request, schema.leafOutcome atlas zone request =
      schema.outcomeAt atlas zone ∘ request.place :=
    fun request => funext fun id => leafOutcome_eq_outcomeAt atlas schema zone request id
  rw [houtcome, houtcome, ← List.mapM_map, ← List.mapM_map, hlinked.places_copy]

theorem conform_fst_of_error {settings : Settings} {schema : Schema} {halt : Halt}
    (h : (schema.conform atlas settings request).2 = .error halt) :
    (schema.conform atlas settings request).1 = request := by
  rw [conform_snd] at h
  rw [conform_eq, h]

theorem conform_sameFrame (hlinked : request.Linked) (atlas : Atlas) (schema : Schema)
    (settings : Settings) :
    (schema.conform atlas settings request).1.SameFrame request := by
  rw [conform_eq]
  cases hresult : (schema.conformInPlace atlas settings request).2 with
  | ok => exact conformInPlace_sameFrame hlinked atlas schema settings
  | error => exact .refl request

theorem conform_inner (hlinked : request.Linked) (atlas : Atlas) (schema : Schema)
    (settings : Settings) {id : NodeId} (hinner : request.isLeaf id = false) :
    (schema.conform atlas settings request).1.payload? id = request.payload? id := by
  rw [conform_eq]
  cases hresult : (schema.conformInPlace atlas settings request).2 with
  | ok =>
    refine conformInPlace_inner hlinked atlas schema settings fun hmem => ?_
    rw [((hlinked.mem_leaves_iff id).mp hmem).2] at hinner
    cases hinner
  | error => rfl

/-- Coercing a copy is copying what was coerced: the result is the same, and the names, the shape
and the payloads of leaves are those of the coerced request. -/
theorem conform_copy {good : Attribute → Prop} (hreachable : Tree.Reachable good request)
    (atlas : Atlas) (schema : Schema) (settings : Settings) :
    let coerced := schema.conform atlas settings request
    let copied := schema.conform atlas settings (request.copy root)
    copied.2 = coerced.2 ∧ copied.1 = coerced.1.copy root ∧
      (coerced.1.branches [root]).Matched Tree.SameLeaf (copied.1.branches [root]) := by
  have hlinked := hreachable.linked
  have hcopy := hlinked.linked_copy
  intro coerced copied
  have hframe : coerced.1.SameFrame request := conform_sameFrame hlinked atlas schema settings
  have hframe' : copied.1.SameFrame (request.copy root) :=
    conform_sameFrame hcopy atlas schema settings
  have hcoerced := hframe.linked hlinked
  have hruns := mapM_leafOutcome_copy hlinked atlas schema settings.zone
  rw [mapM_leafOutcome hlinked, mapM_leafOutcome hcopy] at hruns
  obtain ⟨hresult, hleaves⟩ := map_const_eq_iff.mp hruns
  have hcopied : copied.1 = coerced.1.copy root := by
    cases hended : coerced.2 with
    | error halt =>
      rw [conform_fst_of_error (hresult.trans hended), conform_fst_of_error hended]
    | ok =>
      refine hcoerced.eq_copy ?_ (fun id hid hinner => ?_) ?_
      · exact hframe'.trans (hlinked.sameFrame_copy hcoerced hframe.symm)
      · rw [hframe'.contains] at hid
        rw [hframe'.isLeaf] at hinner
        rw [conform_inner hcopy atlas schema settings hinner,
          hlinked.payload?_copy_of_inner hid hinner]
      · rw [hframe'.leaves, hframe.leaves]
        exact hleaves (hresult.trans hended)
  refine ⟨hresult, hcopied, ?_⟩
  rw [hcopied]
  exact hcoerced.matched_copy

private def voyageSchema : Schema :=
  .ofOutline ⟨⟨some "voyage", .blank⟩,
    .cons ⟨some "leg", .blank⟩ (.cons ⟨some "sailed", .ofKind .date⟩ .nil .nil) .nil⟩

private def voyage : Request :=
  (Tree.removeChild (.ofOutline ⟨⟨some "voyage", .blank⟩,
    .cons ⟨some "draft", .blank⟩ .nil
      (.cons ⟨some "leg", .string "outward"⟩
        (.cons ⟨some "sailed", .number (.integer 86400000)⟩ .nil .nil) .nil)⟩) root "draft").1

theorem conform_copy_voyage :
    Tree.Reachable (fun _ => True) voyage ∧
    voyage.children root = [2] ∧ (voyage.copy root).children root = [1] ∧
    voyage.payload? 2 = some (.string "outward") ∧ (voyage.copy root).payload? 1 = some default ∧
    (voyageSchema.conform .london ⟨.utc⟩ voyage).1.payload? 3 = some (.date 86400000) ∧
    (voyageSchema.conform .london ⟨.utc⟩ (voyage.copy root)).2 = .ok () ∧
    (voyageSchema.conform .london ⟨.utc⟩ (voyage.copy root)).1 =
      (voyageSchema.conform .london ⟨.utc⟩ voyage).1.copy root ∧
    (voyageSchema.conform .london ⟨.utc⟩ (voyage.copy root)).1.payload? 2 =
      some (.date 86400000) := by
  have hreachable : Tree.Reachable (fun _ => True) voyage :=
    .edited (Tree.reachable_ofOutline _ trivial fun _ _ => trivial) (.removeChild _ root "draft")
  obtain ⟨hresult, hcopied, -⟩ := conform_copy hreachable .london voyageSchema ⟨.utc⟩
  have hok : (voyageSchema.conform .london ⟨.utc⟩ voyage).2 = .ok () := rfl
  refine ⟨hreachable, rfl, rfl, rfl, rfl, rfl, hresult.trans hok, hcopied, ?_⟩
  rw [hcopied]
  rfl

end Schema

end Conform
