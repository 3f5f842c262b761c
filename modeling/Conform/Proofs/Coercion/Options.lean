import Conform.Proofs.Coercion.Objections
import Conform.Proofs.Schema.Verification
/-!
# Options during coercion

Coercion reads the zone of an entry when a number becomes a time, and only a
zone that does not exist makes it fail over an option. A verified schema has
no such zone at a leaf. Inner nodes are not verified, and a leaf of a request
may stand where the schema has an inner node.
-/

namespace Conform

open Conform.Tree (root)

theorem Entry.Zoneless.code {atlas : Atlas} {entry : Entry} {failure : Failure}
    (h : entry.Zoneless atlas (.failure failure)) : failure.code = "ILLEGAL_OPTION" := by
  cases h with
  | illegal => rfl

namespace Schema

variable {atlas : Atlas} {schema : Schema} {request : Request}

/-- A number stands where the schema has an inner node for times, and the zone that is named there
ends the run. -/
def Stranded (atlas : Atlas) (schema : Schema) (request : Request) (halt : Halt) : Prop :=
  ∃ leaf ∈ request.leaves, ∃ a path id entry, request.payload? leaf = some a ∧ a.kind = .number ∧
    request.pathFrom? root leaf = some path ∧ schema.resolve? root path = some id ∧
    schema.isLeaf id = false ∧ schema.payload? id = some entry ∧ entry.kind? = some .time ∧
    entry.zone? atlas = .error halt

/-- At a leaf of a verified schema the zone can be read. -/
theorem isLeaf_of_zoneless {good : Entry → Prop} {id : NodeId} {entry : Entry} {halt : Halt}
    (hschema : Tree.Reachable good schema) (hverified : schema.verify atlas = .ok ())
    (hentry : schema.payload? id = some entry) (hzoneless : entry.Zoneless atlas halt) :
    schema.isLeaf id = false := by
  rw [Bool.eq_false_iff]
  intro hleaf
  have hcontains : schema.contains id = true := Tree.contains_iff_payload?.mpr ⟨entry, hentry⟩
  have hverify := (verify_ok_iff hschema.linked).mp hverified id hcontains hleaf entry hentry
  obtain ⟨own?, hnames⟩ := Entry.names_of_verify hverify
  have hread := hnames.zone?
  rw [hzoneless.zone?] at hread
  cases hread

theorem stranded_or_code {good : Entry → Prop} {held : Attribute → Prop}
    (hschema : Tree.Reachable good schema) (hverified : schema.verify atlas = .ok ())
    (hrequest : Tree.Reachable held request) {settings : Settings} {halt : Halt}
    (h : (schema.conform atlas settings request).2 = .error halt) :
    (schema.Stranded atlas request halt ∧
      ∀ failure, halt = .failure failure → failure.code = "ILLEGAL_OPTION") ∨
    ∃ failure, halt = .failure failure ∧
      failure.code ∈ ["WRONG_TYPES", "INCOMPATIBLE_TYPES", "INVALID_OPERATION", "ILLEGAL_VALUE"] := by
  obtain ⟨leaf, hleaf, path, entry, a, hpath, hentry, ha, hmem⟩ :=
    exists_objection_of_conform_error hrequest.linked h
  refine (Entry.zoneless_or_code_of_mem_objections hmem).imp_left ?_
  rintro ⟨hnumber, htime, hzoneless⟩
  obtain ⟨id, hid, hentry⟩ := Option.bind_eq_some_iff.mp hentry
  have hinner := isLeaf_of_zoneless hschema hverified hentry hzoneless
  refine ⟨⟨leaf, hleaf, a, path, id, entry, ha, hnumber, hpath, hid, hinner, hentry, htime,
    hzoneless.zone?⟩, ?_⟩
  rintro failure rfl
  exact hzoneless.code

/-- A verified schema makes a coercion fail over options in one way only: a number of the request
stands where the schema has an inner node for times, and the zone named there cannot be read. In the
same place only may the run be stopped. The schemas that documents describe are verified. -/
theorem option_failure_of_conform {good : Entry → Prop} {held : Attribute → Prop}
    (hschema : Tree.Reachable good schema) (hverified : schema.verify atlas = .ok ())
    (hrequest : Tree.Reachable held request) (settings : Settings) :
    (∀ failure, (schema.conform atlas settings request).2 = .error (.failure failure) →
      failure.code ≠ "NO_OPTIONS" ∧ failure.code ≠ "UNKNOWN_OPTION" ∧
      (failure.code = "ILLEGAL_OPTION" → schema.Stranded atlas request (.failure failure))) ∧
    (∀ overflow, (schema.conform atlas settings request).2 = .error (.overflow overflow) →
      schema.Stranded atlas request (.overflow overflow)) ∧
    ∀ outline described, ofOutline atlas outline = .ok described →
      Tree.Reachable (fun _ => True) described ∧ described.verify atlas = .ok () := by
  refine ⟨fun failure hfailed => ?_, fun overflow hstopped => ?_,
    fun outline described => verify_of_ofOutline⟩
  · rcases stranded_or_code hschema hverified hrequest hfailed with
      ⟨hstranded, hcode⟩ | ⟨other, heq, hcode⟩
    · have hillegal := hcode failure rfl
      exact ⟨by simp [hillegal], by simp [hillegal], fun _ => hstranded⟩
    · cases heq
      refine ⟨?_, ?_, ?_⟩ <;> rintro hother <;> simp [hother] at hcode
  · rcases stranded_or_code hschema hverified hrequest hstopped with ⟨hstranded, -⟩ | ⟨_, heq, -⟩
    · exact hstranded
    · cases heq

private def departureOutline : Outline Entry :=
  ⟨⟨some "trip", .blank⟩,
    .cons ⟨some "at", timeIn "Atlantis/Capital"⟩
      (.cons ⟨some "gate", .ofKind .string⟩ .nil .nil) .nil⟩

private def departureSchema : Schema := Tree.ofOutline departureOutline

private def departureRequest : Request :=
  .ofOutline ⟨⟨some "trip", .blank⟩, .cons ⟨some "at", .number (.integer 0)⟩ .nil .nil⟩

private theorem reachable_departureRequest :
    Tree.Reachable Attribute.Obtainable departureRequest := by
  refine Tree.reachable_ofOutline _ .blank fun label hlabel => ?_
  rw [List.mem_singleton.mp hlabel]
  exact .number _

theorem option_failure_of_conform_departure :
    Tree.Reachable (fun _ => True) departureSchema ∧ departureSchema.verify .london = .ok () ∧
    Tree.Reachable Attribute.Obtainable departureRequest ∧
    ∃ failure, (departureSchema.conform .london ⟨.utc⟩ departureRequest).2 =
        .error (.failure failure) ∧
      failure.code = "ILLEGAL_OPTION" ∧
      departureSchema.Stranded .london departureRequest (.failure failure) := by
  have hread : ofOutline .london departureOutline = .ok departureSchema := rfl
  obtain ⟨hreachable, hverified⟩ := verify_of_ofOutline hread
  obtain ⟨hfailures, -⟩ :=
    option_failure_of_conform hreachable hverified reachable_departureRequest ⟨.utc⟩
  obtain ⟨-, -, hillegal⟩ := hfailures _ rfl
  exact ⟨hreachable, hverified, reachable_departureRequest, _, rfl, rfl, hillegal rfl⟩

/-- What is known when a schema is read does not keep a coercion from failing over an option. -/
theorem verified_and_illegalOption :
    ofOutline .london departureOutline = .ok departureSchema ∧
    departureSchema.verify .london = .ok () ∧
    Tree.Reachable (fun _ => True) departureSchema ∧
    Tree.Reachable Attribute.Obtainable departureRequest ∧
    ∃ failure, (departureSchema.conform .london ⟨.utc⟩ departureRequest).2 =
        .error (.failure failure) ∧
      failure.code = "ILLEGAL_OPTION" := by
  have hread : ofOutline .london departureOutline = .ok departureSchema := rfl
  obtain ⟨hreachable, hverified⟩ := verify_of_ofOutline hread
  exact ⟨hread, hverified, hreachable, reachable_departureRequest, _, rfl, rfl⟩

end Schema

end Conform
