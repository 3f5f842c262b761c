import Conform.Proofs.Coercion.Objections
import Conform.Request.Document
/-!
# Requests from documents

Whatever a document says, coercion of the request in it is not a misuse. Two
things are true of every attribute that a document leads to: a single value is
no list, and a list that is not empty is of a kind with a stored form. Objects
and nulls are what such a list cannot be turned into anyway, so the kinds are
found incompatible before its form is looked at.
-/

namespace Conform

open Conform.Tree (root)

namespace Attribute

/-- A list is held just where the cardinality says so, and one with members can be stored. -/
structure Storable (a : Attribute) : Prop where
  fits : a.Fits
  hasArrayForm (filled : a.values ≠ []) : a.kind.hasArrayForm = true

theorem storable_of_empty {a : Attribute} (h : a.value? = none) : a.Storable where
  fits value hvalue := by
    rw [h] at hvalue
    cases hvalue
  hasArrayForm hfilled := by simp [values, h] at hfilled

theorem storable_scalar (kind : Kind) {value : Value} (h : value.isArray = false) :
    (scalar kind value).Storable where
  fits held hheld := by
    cases hheld
    exact h
  hasArrayForm hfilled := by
    cases value with
    | array => cases h
    | _ => exact absurd rfl hfilled

theorem not_isArray_of_mem_presented {a : Attribute} (h : a.Fits) (hsingle : a.isMultiple = false)
    {value : Value} (hvalue : value ∈ a.presented) : value.isArray = false := by
  rw [presented, hsingle] at hvalue
  rw [h value (by simpa using hvalue), hsingle]

end Attribute

theorem Kind.not_accepts_of_hasArrayForm {target source : Kind} (hform : source.hasArrayForm = true)
    (htarget : target = .object ∨ target = .null) : target.accepts source = false := by
  rcases htarget with rfl | rfl
  all_goals
    cases source with
    | object | null => cases hform
    | _ => decide

/-- What an entry objects to first in a storable attribute is a matter of the data. -/
theorem Entry.code_ne_of_storable {atlas : Atlas} {entry : Entry} {path : Path} {a : Attribute}
    (h : a.Storable) {failure : Failure}
    (hfirst : (entry.objections atlas path a).head? = some (.failure failure)) :
    failure.code ≠ "INVALID_OPERATION" := by
  simp only [objections, List.head?_append, Option.or_eq_some_iff] at hfirst
  rcases hfirst with hcardinality | ⟨_, hkind | ⟨haccepts, hform | ⟨_, hvalue | ⟨_, hmisfit⟩⟩⟩⟩
  · cases (Failure.mem_when.mp (List.mem_of_head? hcardinality)).2
    simp [Failure.code]
  · cases (Failure.mem_when.mp (List.mem_of_head? hkind)).2
    simp [Failure.code]
  · obtain ⟨⟨_, hfilled, htarget⟩, _⟩ := Failure.mem_when.mp (List.mem_of_head? hform)
    simp [Failure.when, Kind.not_accepts_of_hasArrayForm (h.hasArrayForm hfilled) htarget]
      at haccepts
  · obtain ⟨value, _, hmem⟩ := List.mem_flatMap.mp (List.mem_of_head? hvalue)
    rcases zoneless_or_illegal_of_mem_valueObjections hmem with
      ⟨-, -, hzoneless⟩ | ⟨text, kind, heq⟩
    · cases hzoneless with
      | illegal => simp [Failure.code]
    · cases heq
      simp [Failure.code]
  · obtain ⟨value, hpresented, hmem⟩ := List.mem_flatMap.mp (List.mem_of_head? hmisfit)
    obtain ⟨⟨hsingle, harray⟩, _⟩ := Failure.mem_when.mp hmem
    rw [Attribute.not_isArray_of_mem_presented h.fits hsingle hpresented] at harray
    cases harray

namespace Request

/-! ## Attributes of documents -/

theorem not_isArray_of_scalarOf {doc : Doc} {value : Value} (h : scalarOf doc = .ok value) :
    value.isArray = false := by
  cases doc with
  | integer n =>
    cases h
    rw [Value.ofInt]
    split <;> rfl
  | list | object => cases h
  | _ =>
    cases h
    rfl

theorem commonKind_some_ok_iff {seen : Kind} {common? : Option Kind} {values : List Value} :
    commonKind (some seen) values = .ok common? ↔
      common? = some seen ∧ ∀ value ∈ values, value.kind? = some seen := by
  induction values with
  | nil =>
    rw [commonKind, Except.ok.injEq]
    simp [eq_comm]
  | cons value rest ih =>
    rw [commonKind, List.forall_mem_cons]
    cases hfound : value.kind? with
    | none => simp
    | some found =>
      by_cases hsame : seen = found
      · subst hsame
        simp [ih]
      · have hother : found ≠ seen := fun heq => hsame heq.symm
        simp [hsame, hother]

theorem commonKind_none_ok_iff {common? : Option Kind} {values : List Value} :
    commonKind none values = .ok common? ↔ (values = [] → common? = none) ∧
      ∀ value ∈ values, ∃ kind, common? = some kind ∧ value.kind? = some kind := by
  cases values with
  | nil =>
    rw [commonKind, Except.ok.injEq]
    simp [eq_comm]
  | cons value rest =>
    rw [commonKind, List.forall_mem_cons]
    cases hfound : value.kind? with
    | none => simp
    | some found =>
      simp only [commonKind_some_ok_iff, reduceCtorEq, false_implies, true_and,
        Option.some.injEq]
      constructor
      · rintro ⟨rfl, hrest⟩
        exact ⟨⟨found, rfl, rfl⟩, fun other hother => ⟨found, rfl, hrest other hother⟩⟩
      · rintro ⟨⟨kind, rfl, rfl⟩, hrest⟩
        refine ⟨rfl, fun other hother => ?_⟩
        obtain ⟨kind, hsame, hkind⟩ := hrest other hother
        rw [hkind, hsame]

theorem hasArrayForm_of_kind? {value : Value} {kind : Kind} (h : value.kind? = some kind) :
    kind.hasArrayForm = true := by
  cases value with
  | boolean | integer | float | string =>
    cases h
    rfl
  | _ => cases h

theorem storable_of_list {kind? : Option Kind} {values : List Value} {a : Attribute}
    (hkind : commonKind none values = .ok kind?)
    (hmade : Attribute.multiple (kind?.getD .null) .multiset values = .ok a) : a.Storable where
  fits := Attribute.fits_of_set hmade
  hasArrayForm hfilled := by
    obtain ⟨rfl, _⟩ := Attribute.eq_of_set hmade
    obtain ⟨value, hvalue⟩ := List.exists_mem_of_ne_nil values hfilled
    obtain ⟨kind, rfl, hfound⟩ := (commonKind_none_ok_iff.mp hkind).2 value hvalue
    exact hasArrayForm_of_kind? hfound

theorem storable_of_attributeOf {doc : Doc} {a : Attribute} (h : attributeOf doc = .ok a) :
    a.Storable := by
  rcases attributeOf_ok h with ⟨_, rfl, rfl⟩ | ⟨rfl, rfl⟩ | ⟨_, values, _, rfl, _, hkind, hmade⟩ |
    ⟨value, kind, hvalue, _, rfl⟩
  · exact Attribute.storable_of_empty rfl
  · exact Attribute.storable_of_empty rfl
  · exact storable_of_list hkind hmade
  · exact Attribute.storable_scalar kind (not_isArray_of_scalarOf hvalue)

mutual
theorem storable_of_belowOf (doc : Doc) {below : Forest (Label Attribute)}
    (h : belowOf doc = .ok below) {label : Label Attribute} (hlabel : label ∈ below.preorder) :
    label.payload.Storable := by
  cases doc with
  | object fields => exact storable_of_rowOf fields (by rwa [belowOf] at h) hlabel
  | _ =>
    rw [belowOf] at h
    cases h
    cases hlabel
theorem storable_of_rowOf (fields : List (String × Doc)) {row : Forest (Label Attribute)}
    (h : rowOf fields = .ok row) {label : Label Attribute} (hlabel : label ∈ row.preorder) :
    label.payload.Storable := by
  cases fields with
  | nil =>
    rw [rowOf] at h
    cases h
    cases hlabel
  | cons field rest =>
    obtain ⟨name, doc⟩ := field
    obtain ⟨payload, below, others, hpayload, hbelow, hothers, rfl⟩ := rowOf_cons_ok h
    simp only [Forest.preorder, List.mem_cons, List.mem_append] at hlabel
    rcases hlabel with rfl | hlabel | hlabel
    · exact storable_of_attributeOf hpayload
    · exact storable_of_belowOf doc hbelow hlabel
    · exact storable_of_rowOf rest hothers hlabel
end

/-- The request in a document can be made with storable attributes only. -/
theorem reachable_of_ofDoc {name : String} {doc : Doc} {request : Request}
    (h : ofDoc name doc = .ok request) : Tree.Reachable Attribute.Storable request := by
  obtain ⟨payload, below, hpayload, hbelow, rfl⟩ := ofDoc_ok_iff.mp h
  apply Tree.reachable_ofOutline
  · exact storable_of_attributeOf hpayload
  · intro label hlabel
    exact storable_of_belowOf doc hbelow hlabel

end Request

/-! ## Coercion -/

namespace Schema

variable {request : Request}

theorem code_ne_of_storable (hreachable : Tree.Reachable Attribute.Storable request)
    {atlas : Atlas} {schema : Schema} {settings : Settings} {failure : Failure}
    (h : (schema.conform atlas settings request).2 = .error (.failure failure)) :
    failure.code ≠ "INVALID_OPERATION" := by
  obtain ⟨leaf, _, hfail⟩ := exists_leafOutcome_error hreachable.linked h
  obtain ⟨path, entry, held, _, _, hheld, hconform⟩ := conform_error_of_leafOutcome hfail
  obtain ⟨node, hnode, rfl⟩ := Tree.payload?_eq_some_iff.mp hheld
  have hstorable : node.payload.Storable := hreachable.carries leaf node hnode
  exact Entry.code_ne_of_storable hstorable
    ((entry.reports_conform atlas settings.zone path node.payload).error_iff.mp hconform)

/-- No document makes a request whose coercion is a misuse, whatever the schema asks for. -/
theorem conform_document_code_ne {name : String} {doc : Doc} (h : Request.ofDoc name doc = .ok request)
    (atlas : Atlas) (schema : Schema) (settings : Settings) (failure : Failure) :
    ((schema.conform atlas settings request).2 = .error (.failure failure) →
      failure.code ≠ "INVALID_OPERATION") ∧
    ((schema.conformInPlace atlas settings request).2 = .error (.failure failure) →
      failure.code ≠ "INVALID_OPERATION") := by
  have hreachable := Request.reachable_of_ofDoc h
  rw [← conform_snd]
  exact ⟨code_ne_of_storable hreachable, code_ne_of_storable hreachable⟩

private def stockDoc : Doc :=
  .object [("empty", .list []), ("sizes", .list [.integer 38, .integer 40])]

private def stockRequest : Request :=
  .ofOutline ⟨⟨some "stock", .blank⟩,
    .cons ⟨some "empty", ⟨some .null, some .multiset, some (.array [])⟩⟩ .nil
      (.cons ⟨some "sizes", ⟨some .number, some .multiset,
        some (.array [.integer 38, .integer 40])⟩⟩ .nil .nil)⟩

private def stockSchema : Schema :=
  .ofOutline ⟨⟨some "stock", .blank⟩,
    .cons ⟨some "empty", .ofKind .object⟩ .nil (.cons ⟨some "sizes", .ofKind .object⟩ .nil .nil)⟩

theorem conform_document_code_ne_stock :
    Request.ofDoc "stock" stockDoc = .ok stockRequest ∧
    (stockSchema.conform .london ⟨.utc⟩ stockRequest).2 =
      .error (.failure (.incompatible .number .object)) ∧
    (Failure.incompatible .number .object).code ≠ "INVALID_OPERATION" := by
  have hdoc : Request.ofDoc "stock" stockDoc = .ok stockRequest := rfl
  have hfail : (stockSchema.conform .london ⟨.utc⟩ stockRequest).2 =
    .error (.failure (.incompatible .number .object)) := rfl
  exact ⟨hdoc, hfail, (conform_document_code_ne hdoc .london stockSchema ⟨.utc⟩ _).1 hfail⟩

end Schema

end Conform
