import Conform.Json.ValueForm
/-!
# Values from documents

A value whose floats are finite is read back from the document that keeps it,
bytes and lists included, and that document is in normal form.
-/

namespace Conform

theorem Doc.normal_singleton {key : String} {doc : Doc} (h : doc.normal = doc) :
    (object [(key, doc)]).normal = object [(key, doc)] := by
  rw [normal, normalFields, normalFields, h]
  rfl

namespace Value

theorem ofInt_toInt (n : Int64) : ofInt n.toInt = integer n := by
  rw [ofInt, if_pos ⟨n.minValue_le_toInt, n.toInt_le⟩, Int64.ofInt_toInt]

mutual
def hasFiniteFloats : Value → Bool
  | float x => x.isFinite
  | array items => allHaveFiniteFloats items
  | null | boolean _ | integer _ | string _ | binary _ => true
def allHaveFiniteFloats : List Value → Bool
  | [] => true
  | item :: rest => item.hasFiniteFloats && allHaveFiniteFloats rest
end

mutual
/-- The value with null in place of every float, at any depth, that is infinite or no number. -/
def finitePart : Value → Value
  | float x => if x.isFinite then float x else null
  | array items => array (finiteParts items)
  | null => null
  | boolean b => boolean b
  | integer n => integer n
  | string s => string s
  | binary bytes => binary bytes
def finiteParts : List Value → List Value
  | [] => []
  | item :: rest => item.finitePart :: finiteParts rest
end

mutual
theorem finitePart_eq_self_iff (value : Value) :
    value.finitePart = value ↔ value.hasFiniteFloats = true := by
  cases value with
  | float x =>
    rw [finitePart, hasFiniteFloats]
    split <;> simp_all
  | array items => rw [finitePart, hasFiniteFloats, array.injEq, finiteParts_eq_self_iff items]
  | _ => rw [finitePart, hasFiniteFloats]; simp
theorem finiteParts_eq_self_iff (items : List Value) :
    finiteParts items = items ↔ allHaveFiniteFloats items = true := by
  cases items with
  | nil => rw [finiteParts, allHaveFiniteFloats]; simp
  | cons item rest =>
    rw [finiteParts, allHaveFiniteFloats, List.cons.injEq, Bool.and_eq_true,
      finitePart_eq_self_iff item, finiteParts_eq_self_iff rest]
end

mutual
theorem ofDoc?_toDoc_eq (value : Value) : ofDoc? value.toDoc = some value.finitePart := by
  cases value with
  | null | boolean | string => rw [toDoc, ofDoc?, finitePart]
  | integer n => rw [toDoc, ofDoc?, ofInt_toInt, finitePart]
  | float x =>
    rw [toDoc, finitePart]
    split <;> rw [ofDoc?]
  | array items =>
    rw [toDoc, ofDoc?, ofDocs?_itemDocs items, finitePart]
    rfl
  | binary bytes =>
    rw [toDoc, ofDoc?, if_pos rfl, Hex.text, String.toList_ofList, Hex.decode?_encode, finitePart]
    rfl
theorem ofDocs?_itemDocs (items : List Value) :
    ofDocs? (itemDocs items) = some (finiteParts items) := by
  cases items with
  | nil => rw [itemDocs, ofDocs?, finiteParts]
  | cons item rest =>
    rw [itemDocs, ofDocs?, ofDoc?_toDoc_eq item, ofDocs?_itemDocs rest, finiteParts]
    rfl
end

theorem ofDoc?_toDoc (value : Value) (h : value.hasFiniteFloats = true) :
    ofDoc? value.toDoc = some value := by
  rw [ofDoc?_toDoc_eq, (finitePart_eq_self_iff value).mpr h]

mutual
theorem normal_toDoc (value : Value) : value.toDoc.normal = value.toDoc := by
  cases value with
  | null | boolean | integer | string => rw [toDoc, Doc.normal]
  | float x =>
    rw [toDoc]
    split <;> rw [Doc.normal]
  | array items => rw [toDoc, Doc.normal, normalItems_itemDocs items]
  | binary bytes =>
    rw [toDoc]
    exact Doc.normal_singleton (by rw [Doc.normal])
theorem normalItems_itemDocs (items : List Value) :
    Doc.normalItems (itemDocs items) = itemDocs items := by
  cases items with
  | nil => rw [itemDocs, Doc.normalItems]
  | cons item rest =>
    rw [itemDocs, Doc.normalItems, normal_toDoc item, normalItems_itemDocs rest]
end

end Value

end Conform
