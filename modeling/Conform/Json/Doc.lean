import Conform.Binary64
import Conform.Keyed
/-!
# Documents

A JSON document as data. Objects keep their fields as they were written; a
document in normal form has the fields of every object in the order of their
keys, each key once.
-/

namespace Conform

/-- A JSON document. Whole numbers lie between `-2 ^ 63` and `2 ^ 64 - 1`; all other numbers are
floats. -/
inductive Doc where
  | null
  | boolean (b : Bool)
  | integer (n : Int)
  | float (x : Binary64)
  | string (s : String)
  | list (items : List Doc)
  | object (fields : List (String × Doc))
  deriving Repr, Inhabited

namespace Doc

mutual
/-- The document with the fields of every object in key order; of equal keys the last one stays. -/
def normal : Doc → Doc
  | list items => list (normalItems items)
  | object fields => object (Keyed.ofList (normalFields fields))
  | null => null
  | boolean b => boolean b
  | integer n => integer n
  | float x => float x
  | string s => string s
def normalItems : List Doc → List Doc
  | [] => []
  | item :: rest => item.normal :: normalItems rest
def normalFields : List (String × Doc) → List (String × Doc)
  | [] => []
  | (key, doc) :: rest => (key, doc.normal) :: normalFields rest
end

mutual
/-- How many lists and objects nest in one another. -/
def nesting : Doc → Nat
  | list items => nestingOfItems items + 1
  | object fields => nestingOfFields fields + 1
  | null | boolean _ | integer _ | float _ | string _ => 0
def nestingOfItems : List Doc → Nat
  | [] => 0
  | item :: rest => max item.nesting (nestingOfItems rest)
def nestingOfFields : List (String × Doc) → Nat
  | [] => 0
  | (_, doc) :: rest => max doc.nesting (nestingOfFields rest)
end

end Doc

end Conform
