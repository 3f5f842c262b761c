import Conform.Json.Token
/-!
# Written documents

A JSON text as the tree of what is written in it. A document that is used must
not nest more than 127 lists and objects, and its strings and numbers must
have a value; what is read only to be passed over need not.
-/

namespace Conform

/-- What is written at one place of a JSON text. -/
inductive Written where
  | null
  | boolean (b : Bool)
  /-- The number, unless it is too great to have a value. -/
  | number (value? : Option Doc)
  | string (text? : Option String)
  | list (items : List Written)
  | object (fields : List (Option String × Written))
  deriving Repr, Inhabited

namespace Written

mutual
/-- What is written at the front of a row of tokens, and the tokens behind it. -/
def readValue : Nat → List Token → Option (Written × List Token)
  | 0, _ => none
  | steps + 1, tokens =>
    match tokens with
    | .null :: rest => some (.null, rest)
    | .boolean b :: rest => some (.boolean b, rest)
    | .number numeral :: rest => some (.number numeral.doc?, rest)
    | .string text? :: rest => some (.string text?, rest)
    | .openList :: .closeList :: rest => some (.list [], rest)
    | .openList :: rest => (readItems steps rest).map fun (items, rest) => (.list items, rest)
    | .openObject :: .closeObject :: rest => some (.object [], rest)
    | .openObject :: rest =>
      (readFields steps rest).map fun (fields, rest) => (.object fields, rest)
    | _ => none
def readItems : Nat → List Token → Option (List Written × List Token)
  | 0, _ => none
  | steps + 1, tokens =>
    match readValue steps tokens with
    | some (item, .comma :: rest) =>
      (readItems steps rest).map fun (items, rest) => (item :: items, rest)
    | some (item, .closeList :: rest) => some ([item], rest)
    | _ => none
def readFields : Nat → List Token → Option (List (Option String × Written) × List Token)
  | 0, _ => none
  | steps + 1, tokens =>
    match tokens with
    | .string key? :: .colon :: rest =>
      match readValue steps rest with
      | some (value, .comma :: rest) =>
        (readFields steps rest).map fun (fields, rest) => ((key?, value) :: fields, rest)
      | some (value, .closeObject :: rest) => some ([(key?, value)], rest)
      | _ => none
    | _ => none
end

/-- What is written at the front of a row of tokens; two steps for each token are enough. -/
def read? (tokens : List Token) : Option (Written × List Token) :=
  readValue (2 * tokens.length + 1) tokens

/-- What is written in a whole text. -/
def ofText? (text : String) : Option Written :=
  match read? (Token.ofText text) with
  | some (written, []) => some written
  | _ => none

def maxNesting : Nat := 127

mutual
/-- The document that is written, if it nests no more than so many lists and objects. -/
def doc? : Nat → Written → Option Doc
  | _, null => some .null
  | _, boolean b => some (.boolean b)
  | _, number value? => value?
  | _, string text? => text?.map .string
  | room, list items =>
    if room = 0 then none else (itemDocs? (room - 1) items).map .list
  | room, object fields =>
    if room = 0 then none else (fieldDocs? (room - 1) fields).map .object
def itemDocs? : Nat → List Written → Option (List Doc)
  | _, [] => some []
  | room, item :: rest => do
    let doc ← doc? room item
    let docs ← itemDocs? room rest
    return doc :: docs
def fieldDocs? : Nat → List (Option String × Written) → Option (List (String × Doc))
  | _, [] => some []
  | room, (key?, value) :: rest => do
    let key ← key?
    let doc ← doc? room value
    let docs ← fieldDocs? room rest
    return (key, doc) :: docs
end

mutual
/-- A document as it would be written. -/
def ofDoc : Doc → Written
  | .null => null
  | .boolean b => boolean b
  | .integer n => number (some (.integer n))
  | .float x => number (some (.float x))
  | .string s => string (some s)
  | .list items => list (ofItems items)
  | .object fields => object (ofFields fields)
def ofItems : List Doc → List Written
  | [] => []
  | item :: rest => ofDoc item :: ofItems rest
def ofFields : List (String × Doc) → List (Option String × Written)
  | [] => []
  | (key, doc) :: rest => (some key, ofDoc doc) :: ofFields rest
end

mutual
/-- A document that has room for its nesting is read back from the way it is written. -/
theorem doc?_ofDoc (room : Nat) (doc : Doc) (h : doc.nesting ≤ room) :
    doc? room (ofDoc doc) = some doc := by
  cases doc with
  | null | boolean | integer | float | string => simp [ofDoc, doc?]
  | list items =>
    cases room with
    | zero => simp [Doc.nesting] at h
    | succ room =>
      have hitems := itemDocs?_ofItems room items (by simpa [Doc.nesting] using h)
      simp [ofDoc, doc?, hitems]
  | object fields =>
    cases room with
    | zero => simp [Doc.nesting] at h
    | succ room =>
      have hfields := fieldDocs?_ofFields room fields (by simpa [Doc.nesting] using h)
      simp [ofDoc, doc?, hfields]
theorem itemDocs?_ofItems (room : Nat) (items : List Doc)
    (h : Doc.nestingOfItems items ≤ room) : itemDocs? room (ofItems items) = some items := by
  cases items with
  | nil => simp [ofItems, itemDocs?]
  | cons item rest =>
    simp only [Doc.nestingOfItems, Nat.max_le] at h
    simp [ofItems, itemDocs?, doc?_ofDoc room item h.1, itemDocs?_ofItems room rest h.2]
theorem fieldDocs?_ofFields (room : Nat) (fields : List (String × Doc))
    (h : Doc.nestingOfFields fields ≤ room) : fieldDocs? room (ofFields fields) = some fields := by
  cases fields with
  | nil => simp [ofFields, fieldDocs?]
  | cons field rest =>
    obtain ⟨key, doc⟩ := field
    simp only [Doc.nestingOfFields, Nat.max_le] at h
    simp [ofFields, fieldDocs?, doc?_ofDoc room doc h.1, fieldDocs?_ofFields room rest h.2]
end

end Written

def Doc.ofText? (text : String) : Option Doc :=
  (Written.ofText? text).bind (Written.doc? Written.maxNesting)

end Conform
