import Conform.Proofs.Attribute
import Conform.Proofs.Binary64
import Conform.Proofs.Tree.Outlines
import Conform.Request.Document
/-!
# Documents there and back

The document of a request that was made from a document. Objects without
fields come back as null, because a leaf without a value stands for both, and
whole numbers past the signed range come back as floats. All else comes back
as it was, with its place and order.
-/

namespace Conform

namespace Doc

mutual
/-- What a JSON document can hold: whole numbers in range, finite floats, and in every object each
key once, in order. -/
def WellFormed : Doc → Prop
  | null | boolean _ | string _ => True
  | integer n => Int64.minValue.toInt ≤ n ∧ n < 2 ^ 64
  | float x => x.isFinite = true
  | list items => WellFormedItems items
  | object fields => Keyed.Sorted fields ∧ WellFormedFields fields
def WellFormedItems : List Doc → Prop
  | [] => True
  | item :: rest => item.WellFormed ∧ WellFormedItems rest
def WellFormedFields : List (String × Doc) → Prop
  | [] => True
  | (_, doc) :: rest => doc.WellFormed ∧ WellFormedFields rest
end

mutual
/-- The document with every empty object replaced by null and every whole number past the signed
range by the float that it is rounded to. -/
def settled : Doc → Doc
  | null => null
  | boolean b => boolean b
  | integer n => if Int64.maxValue.toInt < n then float (.ofInt n) else integer n
  | float x => float x
  | string s => string s
  | list items => list (settledItems items)
  | object [] => null
  | object (field :: rest) => object (settledFields (field :: rest))
def settledItems : List Doc → List Doc
  | [] => []
  | item :: rest => item.settled :: settledItems rest
def settledFields : List (String × Doc) → List (String × Doc)
  | [] => []
  | (key, doc) :: rest => (key, doc.settled) :: settledFields rest
end

end Doc

namespace Request

/-! ## Leaves -/

theorem valueDoc_ofInt {n : Int} (h : (Doc.integer n).WellFormed) :
    valueDoc (.ofInt n) = (Doc.integer n).settled := by
  rw [Doc.WellFormed] at h
  rw [Value.ofInt, Doc.settled]
  by_cases hlarge : Int64.maxValue.toInt < n
  · have hfinite := (Binary64.nearestTo_ofInt_of_maxValue_lt hlarge h.2).isFinite
    rw [if_neg fun hrange => absurd hlarge (Int.not_lt.mpr hrange.2), if_pos hlarge, valueDoc,
      if_pos hfinite]
  · rw [if_pos ⟨h.1, Int.not_lt.mp hlarge⟩, if_neg hlarge, valueDoc]
    rw [Int64.toInt_ofInt_of_le h.1 (Int.lt_of_le_of_lt (Int.not_lt.mp hlarge) (by decide))]

theorem valueDoc_of_scalarOf {doc : Doc} (hdoc : doc.WellFormed) {value : Value}
    (h : scalarOf doc = .ok value) : valueDoc value = doc.settled := by
  cases doc with
  | integer n =>
    cases h
    exact valueDoc_ofInt hdoc
  | float x =>
    cases h
    rw [Doc.WellFormed] at hdoc
    rw [valueDoc, if_pos hdoc, Doc.settled]
  | list | object => cases h
  | _ =>
    cases h
    rw [valueDoc, Doc.settled]

theorem valueDocs_of_scalarsOf {items : List Doc} (hitems : Doc.WellFormedItems items)
    {values : List Value} (h : scalarsOf items = .ok values) :
    valueDocs values = Doc.settledItems items := by
  induction items generalizing values with
  | nil =>
    cases h
    rw [valueDocs, Doc.settledItems]
  | cons item rest ih =>
    rw [Doc.WellFormedItems] at hitems
    obtain ⟨value, hvalue, h⟩ := bind_eq_ok_iff.mp h
    obtain ⟨others, hothers, heq⟩ := bind_eq_ok_iff.mp h
    cases heq
    rw [valueDocs, Doc.settledItems, valueDoc_of_scalarOf hitems.1 hvalue, ih hitems.2 hothers]

/-- The leaf of a document that is no object with fields. -/
theorem leafDoc_of_attributeOf {doc : Doc} (hdoc : doc.WellFormed) {a : Attribute}
    (h : attributeOf doc = .ok a) (hbelow : belowOf doc = .ok .nil) : leafDoc a = doc.settled := by
  rcases attributeOf_ok h with ⟨fields, rfl, rfl⟩ | ⟨rfl, rfl⟩ |
    ⟨items, values, _, rfl, hvalues, _, hmade⟩ | ⟨value, _, hvalue, _, rfl⟩
  · cases fields with
    | nil =>
      rw [Doc.settled]
      rfl
    | cons field rest =>
      rw [belowOf] at hbelow
      obtain ⟨_, _, _, _, _, _, hrow⟩ := rowOf_cons_ok hbelow
      cases hrow
  · rw [Doc.settled]
    rfl
  · rw [Doc.WellFormed] at hdoc
    rw [(Attribute.eq_of_set hmade).1, Doc.settled, ← valueDocs_of_scalarsOf hdoc hvalues]
    simp [leafDoc, Value.isNull, valueDoc]
  · rw [← valueDoc_of_scalarOf hdoc hvalue]
    rfl

/-! ## Objects -/

theorem fieldsOnto_cons (held : List (String × Doc)) (name : String) (payload : Attribute)
    (below rest : Forest (Label Attribute)) :
    fieldsOnto held (.cons ⟨some name, payload⟩ below rest) =
      fieldsOnto (Keyed.insert name (outlineDoc ⟨⟨some name, payload⟩, below⟩) held) rest := by
  rw [fieldsOnto]
  rfl

mutual
theorem outlineDoc_of_belowOf (doc : Doc) (hdoc : doc.WellFormed) {label : Label Attribute}
    {below : Forest (Label Attribute)} (hpayload : attributeOf doc = .ok label.payload)
    (hbelow : belowOf doc = .ok below) : outlineDoc ⟨label, below⟩ = doc.settled := by
  by_cases hleaf : below.isEmpty = true
  · rw [below.isEmpty_iff.mp hleaf] at hbelow
    rw [outlineDoc, if_pos hleaf, leafDoc_of_attributeOf hdoc hpayload hbelow]
  · cases doc with
    | object fields =>
      rw [belowOf] at hbelow
      rw [Doc.WellFormed] at hdoc
      cases fields with
      | nil =>
        rw [rowOf] at hbelow
        cases hbelow
        exact absurd rfl hleaf
      | cons field rest =>
        have hfields := fieldsOnto_of_rowOf (field :: rest) hdoc.1 hdoc.2 hbelow []
          fun _ hpair => absurd hpair List.not_mem_nil
        rw [outlineDoc, if_neg hleaf, hfields, Doc.settled, List.nil_append]
    | _ =>
      rw [belowOf] at hbelow
      cases hbelow
      exact absurd rfl hleaf
theorem fieldsOnto_of_rowOf (fields : List (String × Doc)) (hsorted : Keyed.Sorted fields)
    (hfields : Doc.WellFormedFields fields) {row : Forest (Label Attribute)}
    (hrow : rowOf fields = .ok row) (held : List (String × Doc))
    (hheld : ∀ pair ∈ held, ∀ field ∈ fields, pair.1 < field.1) :
    fieldsOnto held row = held ++ Doc.settledFields fields := by
  cases fields with
  | nil =>
    rw [rowOf] at hrow
    cases hrow
    rw [fieldsOnto, Doc.settledFields, List.append_nil]
  | cons field rest =>
    obtain ⟨name, doc⟩ := field
    obtain ⟨payload, below, others, hpayload, hbelow, hothers, rfl⟩ := rowOf_cons_ok hrow
    obtain ⟨hfirst, hsorted⟩ := List.pairwise_cons.mp hsorted
    rw [Doc.WellFormedFields] at hfields
    have hdoc : outlineDoc ⟨⟨some name, payload⟩, below⟩ = doc.settled :=
      outlineDoc_of_belowOf doc hfields.1 hpayload hbelow
    have hinsert : Keyed.insert name doc.settled held = held ++ [(name, doc.settled)] :=
      Keyed.insert_eq_append fun pair hpair => hheld pair hpair _ List.mem_cons_self
    have hrest : ∀ pair ∈ held ++ [(name, doc.settled)], ∀ other ∈ rest, pair.1 < other.1 := by
      intro pair hpair other hother
      rcases List.mem_append.mp hpair with hpair | hpair
      · exact hheld pair hpair other (List.mem_cons_of_mem _ hother)
      · rw [List.mem_singleton.mp hpair]
        exact hfirst other hother
    rw [fieldsOnto_cons, hdoc, hinsert, fieldsOnto_of_rowOf rest hsorted hfields.2 hothers _ hrest,
      Doc.settledFields, List.append_assoc, List.singleton_append]
end

/-- A document that was made into a request comes back with the replacements made and nothing else
changed, and the floats in it are the nearest there are. -/
theorem toDoc_ofDoc {doc : Doc} (hdoc : doc.WellFormed) {name : String} {request : Request}
    (h : ofDoc name doc = .ok request) :
    request.toDoc = doc.settled ∧
    ∀ n : Int, Int64.maxValue.toInt < n → n < 2 ^ 64 → (Binary64.ofInt n).NearestTo n := by
  obtain ⟨payload, hpayload, h⟩ := bind_eq_ok_iff.mp h
  obtain ⟨below, hbelow, heq⟩ := bind_eq_ok_iff.mp h
  cases heq
  refine ⟨?_, fun n => Binary64.nearestTo_ofInt_of_maxValue_lt⟩
  rw [toDoc, Tree.outline?_ofOutline]
  exact outlineDoc_of_belowOf doc hdoc hpayload hbelow

private def orderDoc : Doc :=
  .object [("amount", .integer 18446744073709551615), ("extras", .object []),
    ("lines", .object [("discount", .float ⟨0x3fc0000000000000⟩), ("notes", .object []),
      ("sizes", .list [.integer (-38), .integer 9223372036854775808])])]

private def settledOrder : Doc :=
  .object [("amount", .float ⟨0x43f0000000000000⟩), ("extras", .null),
    ("lines", .object [("discount", .float ⟨0x3fc0000000000000⟩), ("notes", .null),
      ("sizes", .list [.integer (-38), .float ⟨0x43e0000000000000⟩])])]

theorem toDoc_ofDoc_order :
    orderDoc.WellFormed ∧
    (∃ request, ofDoc "order" orderDoc = .ok request ∧ request.toDoc = settledOrder) ∧
    (Binary64.mk 0x43f0000000000000).NearestTo (18446744073709551615 : Int) := by
  have hdoc : orderDoc.WellFormed := by
    simp only [orderDoc, Doc.WellFormed, Doc.WellFormedFields, Doc.WellFormedItems, Keyed.Sorted]
    decide
  obtain ⟨request, hrequest⟩ : ∃ request, ofDoc "order" orderDoc = .ok request := ⟨_, rfl⟩
  obtain ⟨hsettled, hnearest⟩ := toDoc_ofDoc hdoc hrequest
  have hlarge : Binary64.ofInt 18446744073709551615 = ⟨0x43f0000000000000⟩ := by decide
  refine ⟨hdoc, ⟨request, hrequest, hsettled.trans rfl⟩, ?_⟩
  rw [← hlarge]
  exact hnearest _ (by decide) (by decide)

end Request

end Conform
