import Conform.Proofs.Value.Documents
/-!
# Reading values shape by shape

Documents do not say which shape a value had. A reader that tries the shapes in
the order in which they are declared, at every level of a list anew, takes the
first one that accepts: whole numbers before floats, strings and lists before
bytes. What keeps a value is never taken for an earlier shape, so the value
comes back, with null for every float that is infinite or no number.
-/

namespace Conform.Value

/-- The shapes of values. -/
inductive Shape where
  | null
  | boolean
  | integer
  | float
  | string
  | array
  | binary
  deriving DecidableEq, Repr

def Shape.all : List Shape := [null, boolean, integer, float, string, array, binary]

def shape : Value → Shape
  | null => .null
  | boolean _ => .boolean
  | integer _ => .integer
  | float _ => .float
  | string _ => .string
  | array _ => .array
  | binary _ => .binary

def ofDigits? (digits : String) : Option Value := (Hex.decode? digits.toList).map binary

def bytesByKey? : List (String × Doc) → Option Value
  | [(key, .string digits)] => if key = binaryKey then ofDigits? digits else none
  | _ => none

/-- Bytes from a list that stands for the object: its one member is the field, the key left out. -/
def bytesByPlace? : List Doc → Option Value
  | [.string digits] => ofDigits? digits
  | _ => none

mutual
/-- A document read as a value of one shape. A float may be written as a whole number. -/
def readAs? (shape : Shape) : Doc → Option Value
  | .null => if shape = .null then some null else none
  | .boolean b => if shape = .boolean then some (boolean b) else none
  | .integer n =>
    match shape with
    | .integer =>
      if Int64.minValue.toInt ≤ n ∧ n ≤ Int64.maxValue.toInt then some (integer (Int64.ofInt n))
      else none
    | .float => some (float (.ofInt n))
    | _ => none
  | .float x => if shape = .float then some (float x) else none
  | .string s => if shape = .string then some (string s) else none
  | .list items =>
    match shape with
    | .array => (readEach? items).map array
    | .binary => bytesByPlace? items
    | _ => none
  | .object fields => if shape = .binary then bytesByKey? fields else none
def readEach? : List Doc → Option (List Value)
  | [] => some []
  | item :: rest => do
    let value ← Shape.all.findSome? fun shape => readAs? shape item
    let values ← readEach? rest
    return value :: values
end

/-- A document read as the first shape that accepts it. -/
def readFirst? (doc : Doc) : Option Value := Shape.all.findSome? fun shape => readAs? shape doc

theorem ofDoc?_object (fields : List (String × Doc)) :
    ofDoc? (.object fields) = bytesByKey? fields := by
  rcases fields with _ | ⟨⟨key, doc⟩, _ | ⟨next, rest⟩⟩
  · rfl
  · cases doc <;> rfl
  · cases doc <;> rfl

theorem shape_of_ofDigits? {digits : String} {value : Value}
    (h : ofDigits? digits = some value) : value.shape = .binary := by
  obtain ⟨bytes, -, rfl⟩ := Option.map_eq_some_iff.mp h
  rfl

theorem shape_of_bytesByKey? {fields : List (String × Doc)} {value : Value}
    (h : bytesByKey? fields = some value) : value.shape = .binary := by
  unfold bytesByKey? at h
  split at h
  · split at h
    · exact shape_of_ofDigits? h
    · cases h
  · cases h

theorem shape_of_bytesByPlace? {items : List Doc} {value : Value}
    (h : bytesByPlace? items = some value) : value.shape = .binary := by
  unfold bytesByPlace? at h
  split at h
  · exact shape_of_ofDigits? h
  · cases h

theorem shape_of_readAs? {tried : Shape} {doc : Doc} {value : Value}
    (h : readAs? tried doc = some value) : value.shape = tried := by
  cases doc with
  | list items =>
    cases tried with
    | array =>
      obtain ⟨values, -, rfl⟩ := Option.map_eq_some_iff.mp (by simpa only [readAs?] using h)
      rfl
    | binary => exact shape_of_bytesByPlace? (by simpa only [readAs?] using h)
    | _ => simp [readAs?] at h
  | object fields =>
    obtain ⟨rfl, hbytes⟩ : tried = .binary ∧ bytesByKey? fields = some value := by
      simpa [readAs?] using h
    exact shape_of_bytesByKey? hbytes
  | _ => cases tried <;> grind [readAs?, shape]

/-- The first shape that accepts is the one that accepts when all before it refuse. -/
theorem readFirst?_eq_some_iff {doc : Doc} {value : Value} :
    readFirst? doc = some value ↔
      readAs? value.shape doc = some value ∧
        ∃ earlier later, Shape.all = earlier ++ value.shape :: later ∧
          ∀ shape ∈ earlier, readAs? shape doc = none := by
  rw [readFirst?, List.findSome?_eq_some_iff]
  constructor
  · rintro ⟨earlier, shape, later, hall, hread, hrefused⟩
    rw [shape_of_readAs? hread]
    exact ⟨hread, earlier, later, hall, hrefused⟩
  · rintro ⟨hread, earlier, later, hall, hrefused⟩
    exact ⟨earlier, value.shape, later, hall, hread, hrefused⟩

theorem bytesByPlace?_of_readEach? {items : List Doc} (h : readEach? items = none) :
    bytesByPlace? items = none := by
  unfold bytesByPlace?
  split
  case h_1 digits => simp [readEach?, readAs?, Shape.all] at h
  case h_2 => rfl

mutual
theorem readFirst?_eq_ofDoc? (doc : Doc) : readFirst? doc = ofDoc? doc := by
  cases doc with
  | null | boolean | float | string => simp [readFirst?, Shape.all, readAs?, ofDoc?]
  | integer n =>
    rw [ofDoc?, ofInt]
    split <;> simp_all [readFirst?, Shape.all, readAs?]
  | list items =>
    rw [ofDoc?, ← readEach?_eq_ofDocs? items]
    cases hread : readEach? items with
    | none => simp [readFirst?, Shape.all, bytesByPlace?_of_readEach? hread, readAs?, hread]
    | some values => simp [readFirst?, Shape.all, readAs?, hread]
  | object fields => simp [readFirst?, Shape.all, readAs?, ofDoc?_object]
theorem readEach?_eq_ofDocs? (items : List Doc) : readEach? items = ofDocs? items := by
  cases items with
  | nil => rw [readEach?, ofDocs?]
  | cons item rest =>
    rw [readEach?, ofDocs?, ← readFirst?_eq_ofDoc? item, readEach?_eq_ofDocs? rest, readFirst?]
end

/-- Every value is kept in a document that reads back, at the first shape that accepts it and so at
no shape tried before its own, as the value with null for every float that is infinite or no number;
all else stays as it is. -/
theorem readFirst?_toDoc (value : Value) :
    readFirst? value.toDoc = some value.finitePart ∧
      (∃ earlier later, Shape.all = earlier ++ value.finitePart.shape :: later ∧
        ∀ shape ∈ earlier, readAs? shape value.toDoc = none) ∧
      (∀ doc, readFirst? doc = ofDoc? doc) ∧
      (value.finitePart = value ↔ value.hasFiniteFloats = true) := by
  have hread : readFirst? value.toDoc = some value.finitePart := by
    rw [readFirst?_eq_ofDoc?, ofDoc?_toDoc_eq]
  exact ⟨hread, (readFirst?_eq_some_iff.mp hread).2, readFirst?_eq_ofDoc?,
    finitePart_eq_self_iff value⟩

end Conform.Value
