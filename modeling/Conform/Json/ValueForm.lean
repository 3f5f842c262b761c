import Conform.Json.Written
import Conform.Value
/-!
# Values in documents

Values as they are kept in documents. Bytes are an object with one field that
holds their digits, so that they come back as bytes; floats that are no numbers
are lost to null. Every other object is no value.
-/

namespace Conform

def binaryKey : String := "$binary"

namespace Value

mutual
/-- The document that keeps a value. -/
def toDoc : Value → Doc
  | null => .null
  | boolean b => .boolean b
  | integer n => .integer n.toInt
  | float x => if x.isFinite then .float x else .null
  | string s => .string s
  | array items => .list (itemDocs items)
  | binary bytes => .object [(binaryKey, .string (Hex.text bytes))]
def itemDocs : List Value → List Doc
  | [] => []
  | item :: rest => item.toDoc :: itemDocs rest
end

mutual
/-- The value that a document keeps. -/
def ofDoc? : Doc → Option Value
  | .null => some null
  | .boolean b => some (boolean b)
  | .integer n => some (ofInt n)
  | .float x => some (float x)
  | .string s => some (string s)
  | .list items => (ofDocs? items).map array
  | .object [(key, .string digits)] =>
    if key = binaryKey then (Hex.decode? digits.toList).map binary else none
  | .object _ => none
def ofDocs? : List Doc → Option (List Value)
  | [] => some []
  | item :: rest => do
    let value ← ofDoc? item
    let values ← ofDocs? rest
    return value :: values
end

end Value

end Conform
