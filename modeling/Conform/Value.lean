import Conform.Decimal.Layout
import Conform.Hex
/-!
# Values

What an attribute holds and what an option is set to. A value knows its shape
but not its kind: dates and times are integers, counted in milliseconds from
the start of 1970 in Greenwich.
-/

namespace Conform

/-- A scalar, a list of values, or bytes. -/
inductive Value where
  | null
  | boolean (b : Bool)
  | integer (n : Int64)
  | float (x : Binary64)
  | string (s : String)
  | array (items : List Value)
  | binary (bytes : List UInt8)
  deriving Inhabited, Repr

namespace Value

mutual
/-- Equality of values: the same shape and content, floating point numbers compared as numbers. -/
def agrees : Value → Value → Bool
  | null, null => true
  | boolean a, boolean b => a == b
  | integer a, integer b => a == b
  | float a, float b => a.agrees b
  | string a, string b => a == b
  | array a, array b => allAgree a b
  | binary a, binary b => a == b
  | _, _ => false
def allAgree : List Value → List Value → Bool
  | [], [] => true
  | a :: as, b :: bs => a.agrees b && allAgree as bs
  | _, _ => false
end

mutual
/-- The value as messages cite it: strings bare, lists in brackets, bytes in hexadecimal. -/
def text : Value → String
  | null => "null"
  | boolean b => if b then "true" else "false"
  | integer n => toString n.toInt
  | float x => Decimal.Layout.readable.write x
  | string s => s
  | array items => "[" ++ ", ".intercalate (texts items) ++ "]"
  | binary bytes => Hex.text bytes
def texts : List Value → List String
  | [] => []
  | item :: rest => item.text :: texts rest
end

def ofInt (n : Int) : Value :=
  if Int64.minValue.toInt ≤ n ∧ n ≤ Int64.maxValue.toInt then integer (Int64.ofInt n)
  else float (.ofInt n)

def isNull : Value → Bool
  | null => true
  | _ => false

def isArray : Value → Bool
  | array _ => true
  | _ => false

def items? : Value → Option (List Value)
  | array items => some items
  | _ => none

def string? : Value → Option String
  | string s => some s
  | _ => none

/-- A number read as milliseconds: fractions are dropped, and what lies outside the range is brought
to its end. -/
def millis? : Value → Option Int64
  | integer n => some n
  | float x => if x.isFinite then some (clampInt64 x.truncate) else none
  | _ => none

end Value

end Conform
