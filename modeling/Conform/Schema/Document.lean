import Conform.Json.ValueForm
import Conform.Schema.Verify
import Conform.Tree.Outline
/-!
# Schemas in documents

A schema is kept as nested objects of a name, a kind, a cardinality, options
and children, of which any may be missing. An object may also be written as
the list of these parts in their order. What the document says is an outline,
which becomes a schema when all nodes below the root are named and the options
of its leaves are in order.
-/

namespace Conform.Schema

/-- The parts of a node in a document, in their order. -/
inductive Part where
  | name
  | kind
  | cardinality
  | options
  | children
  deriving DecidableEq, Repr

namespace Part

def all : List Part := [name, kind, cardinality, options, children]

def key : Part → String
  | name => "name"
  | kind => "type"
  | cardinality => "cardinality"
  | options => "options"
  | children => "children"

def ofKey? (key : String) : Option Part := all.find? (·.key == key)

end Part

/-- A node as far as its parts have been read. -/
structure Draft where
  seen : List Part
  label : Label Entry
  below : Forest (Label Entry)

namespace Draft

def fresh : Draft := ⟨[], ⟨none, .blank⟩, .nil⟩

def outline (draft : Draft) : Outline Entry := ⟨draft.label, draft.below⟩

end Draft

def nameOf? : Written → Option (Option String)
  | .null => some none
  | .string (some name) => some (some name)
  | _ => none

/-- The keyword in a part: a string, or an object with the keyword as the key of a null. -/
def keywordOf? : Nat → Written → Option String
  | _, .string text? => text?
  | room, .object [(some word, .null)] => if room = 0 then none else some word
  | _, _ => none

def kindOf? : Nat → Written → Option (Option Kind)
  | _, .null => some none
  | room, written => ((keywordOf? room written).bind Kind.ofKeyword?).map some

def cardinalityOf? : Nat → Written → Option (Option Cardinality)
  | _, .null => some none
  | room, written => ((keywordOf? room written).bind Cardinality.ofKeyword?).map some

def valuesOf? : List (String × Doc) → Option (List (String × Value))
  | [] => some []
  | (key, doc) :: rest => do
    let value ← Value.ofDoc? doc
    let values ← valuesOf? rest
    return (key, value) :: values

/-- The options in a part; of equal keys the last one counts. -/
def optionsOf? (room : Nat) : Written → Option Options
  | .object fields =>
    if room = 0 then none
    else do
      let docs ← Written.fieldDocs? (room - 1) fields
      let values ← valuesOf? docs
      return .ofList values
  | _ => none

mutual
/-- The outline written as an object or as a list of parts, nesting no more than so many. -/
def readOutline : Nat → Written → Option (Outline Entry)
  | room, .object fields =>
    if room = 0 then none else (readFields (room - 1) .fresh fields).map Draft.outline
  | room, .list items =>
    if room = 0 then none else (readParts (room - 1) .fresh Part.all items).map Draft.outline
  | _, _ => none
/-- Reads fields into a draft; unknown keys are passed over and no part may come twice. -/
def readFields : Nat → Draft → List (Option String × Written) → Option Draft
  | _, draft, [] => some draft
  | room, draft, (key?, written) :: rest =>
    match key? with
    | none => none
    | some key =>
      match Part.ofKey? key with
      | none => readFields room draft rest
      | some part =>
        if draft.seen.contains part then none
        else do
          let grown ← readPart room draft part written
          readFields room grown rest
/-- Reads the members of a list as parts; the last parts may be missing. -/
def readParts : Nat → Draft → List Part → List Written → Option Draft
  | _, draft, _, [] => some draft
  | _, _, [], _ :: _ => none
  | room, draft, part :: parts, written :: rest => do
    let grown ← readPart room draft part written
    readParts room grown parts rest
/-- Reads one part into a draft. -/
def readPart : Nat → Draft → Part → Written → Option Draft
  | room, draft, part, written => do
    let seen := part :: draft.seen
    match part, written with
    | .name, written =>
      let name? ← nameOf? written
      return { draft with seen, label := { draft.label with name? } }
    | .kind, written =>
      let kind? ← kindOf? room written
      return { draft with seen, label.payload.kind? := kind? }
    | .cardinality, written =>
      let cardinality? ← cardinalityOf? room written
      return { draft with seen, label.payload.cardinality? := cardinality? }
    | .options, written =>
      let options ← optionsOf? room written
      return { draft with seen, label.payload.options := options }
    | .children, .list items =>
      if room = 0 then none
      else
        let below ← readChildren (room - 1) items
        return { draft with seen, below }
    | .children, _ => none
/-- Reads the members of a list as the trees of a row. -/
def readChildren : Nat → List Written → Option (Forest (Label Entry))
  | _, [] => some .nil
  | room, item :: rest => do
    let outline ← readOutline room item
    let others ← readChildren room rest
    return .cons outline.root outline.below others
end

def outlineOfText (text : String) : Except Failure (Outline Entry) :=
  match (Written.ofText? text).bind (readOutline Written.maxNesting) with
  | some outline => .ok outline
  | none => .error (.misuse (.unreadableSchema .malformed))

/-- The outline in a document, however deep it nests. -/
def outlineOfDoc? (doc : Doc) : Option (Outline Entry) :=
  readOutline doc.nesting (.ofDoc doc)

/-- The schema of an outline, when its nodes are named and its options are in order. -/
def ofOutline (atlas : Atlas) (outline : Outline Entry) : Except Halt Schema :=
  if outline.below.preorder.any fun label => label.name?.isNone then
    .error (.failure (.misuse .unnamedChild))
  else
    let schema := Tree.ofOutline outline
    (verify atlas schema).map fun _ => schema

def outline (schema : Schema) : Outline Entry :=
  (schema.outline? Tree.root).getD ⟨⟨none, .blank⟩, .nil⟩

def optionFields (options : Options) : List (String × Doc) :=
  options.pairs.map fun (key, value) => (key, value.toDoc)

/-- The fields of a node, without those that say nothing. -/
def labelFields (label : Label Entry) : List (String × Doc) :=
  let entry := label.payload
  (label.name?.map fun name => (Part.name.key, Doc.string name)).toList ++
    (entry.kind?.map fun kind => (Part.kind.key, Doc.string kind.keyword)).toList ++
    (entry.cardinality?.map fun c => (Part.cardinality.key, Doc.string c.keyword)).toList ++
    if entry.options.isEmpty then []
    else [(Part.options.key, .object (optionFields entry.options))]

def rowDocs : Forest (Label Entry) → List Doc
  | .nil => []
  | .cons label below rest =>
    let children := if below.isEmpty then [] else [(Part.children.key, .list (rowDocs below))]
    .object (labelFields label ++ children) :: rowDocs rest

/-- The document that keeps an outline. -/
def outlineDoc (outline : Outline Entry) : Doc :=
  .object (labelFields outline.root ++
    if outline.below.isEmpty then []
    else [(Part.children.key, .list (rowDocs outline.below))])

/-- Equality of outlines, entries compared as entries. -/
def rowAgrees : Forest (Label Entry) → Forest (Label Entry) → Bool
  | .nil, .nil => true
  | .cons a below rest, .cons b otherBelow otherRest =>
    a.name? == b.name? && a.payload.agrees b.payload && rowAgrees below otherBelow &&
      rowAgrees rest otherRest
  | _, _ => false

def outlineAgrees (a b : Outline Entry) : Bool :=
  rowAgrees (.cons a.root a.below .nil) (.cons b.root b.below .nil)

end Conform.Schema
