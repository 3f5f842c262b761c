import Conform.Attribute
import Conform.Json.Printer
import Conform.Tree.Outline
/-!
# Requests in documents

A request as it comes in: objects give structure, scalars become leaves of the
kind that their shape suggests, and a list becomes a leaf that holds several
values of one kind. Going back, inner nodes become objects and leaves become
the documents of their values.
-/

namespace Conform.Request

/-- The value of a document that is no list and no object. -/
def scalarOf : Doc → Except Failure Value
  | .null => .ok .null
  | .boolean b => .ok (.boolean b)
  | .integer n => .ok (.ofInt n)
  | .float x => .ok (.float x)
  | .string s => .ok (.string s)
  | .list items => .error (.misuse (.nestedElement (Doc.list items).text))
  | .object fields => .error (.misuse (.nestedElement (Doc.object fields).text))

def scalarsOf : List Doc → Except Failure (List Value)
  | [] => .ok []
  | item :: rest => do
    let value ← scalarOf item
    let values ← scalarsOf rest
    return value :: values

/-- The one kind of values, the first of which have the kind seen so far. -/
def commonKind (seen? : Option Kind) : List Value → Except Failure (Option Kind)
  | [] => .ok seen?
  | value :: rest =>
    match value.kind? with
    | none => .error (.misuse (.untypedElement value.text))
    | some found =>
      match seen? with
      | none => commonKind (some found) rest
      | some seen =>
        if seen = found then commonKind (some found) rest
        else .error (.misuse (.mixedElements seen found))

/-- The attribute of a document; objects give structure only and have a blank one. -/
def attributeOf : Doc → Except Failure Attribute
  | .object _ => .ok .blank
  | .null => .ok .null
  | .list items => do
    let values ← scalarsOf items
    let kind? ← commonKind none values
    Attribute.multiple (kind?.getD .null) .multiset values
  | scalar => do
    let value ← scalarOf scalar
    match Attribute.guess? value with
    | some guessed => .ok guessed
    | none => .error (.misuse (.untypedValue value.text))

/-- What the attribute of a document can be. -/
theorem attributeOf_ok {doc : Doc} {a : Attribute} (h : attributeOf doc = .ok a) :
    (∃ fields, doc = .object fields ∧ a = .blank) ∨ (doc = .null ∧ a = .null) ∨
    (∃ items values kind?, doc = .list items ∧ scalarsOf items = .ok values ∧
      commonKind none values = .ok kind? ∧
      Attribute.multiple (kind?.getD .null) .multiset values = .ok a) ∨
    ∃ value kind, scalarOf doc = .ok value ∧ value.kind? = some kind ∧ a = .scalar kind value := by
  have hscalar (hguess : (do
      let value ← scalarOf doc
      match Attribute.guess? value with
      | some guessed => .ok guessed
      | none => .error (.misuse (.untypedValue value.text))) = Except.ok a) :
      ∃ value kind, scalarOf doc = .ok value ∧ value.kind? = some kind ∧
        a = .scalar kind value := by
    obtain ⟨value, hvalue, hguess⟩ := bind_eq_ok_iff.mp hguess
    cases hkind : value.kind? with
    | none => simp [Attribute.guess?, hkind] at hguess
    | some kind =>
      simp only [Attribute.guess?, hkind, Option.map_some, Except.ok.injEq] at hguess
      exact ⟨value, kind, hvalue, hkind, hguess.symm⟩
  cases doc with
  | object fields => exact .inl ⟨fields, rfl, (Except.ok.inj h).symm⟩
  | null => exact .inr (.inl ⟨rfl, (Except.ok.inj h).symm⟩)
  | list items =>
    obtain ⟨values, hvalues, h⟩ := bind_eq_ok_iff.mp h
    obtain ⟨kind?, hkind, hmade⟩ := bind_eq_ok_iff.mp h
    exact .inr (.inr (.inl ⟨items, values, kind?, rfl, hvalues, hkind, hmade⟩))
  | boolean | integer | float | string => exact .inr (.inr (.inr (hscalar h)))

mutual
/-- The trees below the node of a document. -/
def belowOf : Doc → Except Failure (Forest (Label Attribute))
  | .object fields => rowOf fields
  | .null | .boolean _ | .integer _ | .float _ | .string _ | .list _ => .ok .nil
/-- The trees of the fields of an object, up to the first that cannot be made. -/
def rowOf : List (String × Doc) → Except Failure (Forest (Label Attribute))
  | [] => .ok .nil
  | (name, doc) :: rest => do
    let payload ← attributeOf doc
    let below ← belowOf doc
    let others ← rowOf rest
    return .cons ⟨some name, payload⟩ below others
end

theorem rowOf_cons_ok {name : String} {doc : Doc} {rest : List (String × Doc)}
    {row : Forest (Label Attribute)} (h : rowOf ((name, doc) :: rest) = .ok row) :
    ∃ payload below others, attributeOf doc = .ok payload ∧ belowOf doc = .ok below ∧
      rowOf rest = .ok others ∧ row = .cons ⟨some name, payload⟩ below others := by
  rw [rowOf] at h
  obtain ⟨payload, hpayload, h⟩ := bind_eq_ok_iff.mp h
  obtain ⟨below, hbelow, h⟩ := bind_eq_ok_iff.mp h
  obtain ⟨others, hothers, heq⟩ := bind_eq_ok_iff.mp h
  cases heq
  exact ⟨payload, below, others, hpayload, hbelow, hothers, rfl⟩

/-- The request in a document, with a name for its root. -/
def ofDoc (name : String) (doc : Doc) : Except Failure Request := do
  let payload ← attributeOf doc
  let below ← belowOf doc
  return Tree.ofOutline ⟨⟨some name, payload⟩, below⟩

theorem ofDoc_ok_iff {name : String} {doc : Doc} {request : Request} :
    ofDoc name doc = .ok request ↔ ∃ payload below, attributeOf doc = .ok payload ∧
      belowOf doc = .ok below ∧ request = Tree.ofOutline ⟨⟨some name, payload⟩, below⟩ := by
  rw [ofDoc, bind_eq_ok_iff]
  constructor
  · rintro ⟨payload, hpayload, h⟩
    obtain ⟨below, hbelow, heq⟩ := bind_eq_ok_iff.mp h
    exact ⟨payload, below, hpayload, hbelow, (Except.ok.inj heq).symm⟩
  · rintro ⟨payload, below, hpayload, hbelow, rfl⟩
    exact ⟨payload, hpayload, bind_eq_ok_iff.mpr ⟨below, hbelow, rfl⟩⟩

mutual
/-- The document of a value: bytes are a list of numbers and floats that are no numbers are null. -/
def valueDoc : Value → Doc
  | .null => .null
  | .boolean b => .boolean b
  | .integer n => .integer n.toInt
  | .float x => if x.isFinite then .float x else .null
  | .string s => .string s
  | .array items => .list (valueDocs items)
  | .binary bytes => .list (bytes.map fun byte => .integer byte.toNat)
def valueDocs : List Value → List Doc
  | [] => []
  | item :: rest => valueDoc item :: valueDocs rest
end

def leafDoc (a : Attribute) : Doc := a.value?.elim .null valueDoc

/-- Puts the fields of a row of trees, from left to right, among fields there are. -/
def fieldsOnto (fields : List (String × Doc)) : Forest (Label Attribute) → List (String × Doc)
  | .nil => fields
  | .cons label below rest =>
    let doc := if below.isEmpty then leafDoc label.payload else .object (fieldsOnto [] below)
    fieldsOnto (Keyed.insert label.title doc fields) rest

def outlineDoc (outline : Outline Attribute) : Doc :=
  if outline.below.isEmpty then leafDoc outline.root.payload
  else .object (fieldsOnto [] outline.below)

def toDoc (request : Request) : Doc := (request.outline? Tree.root).elim .null outlineDoc

end Conform.Request
