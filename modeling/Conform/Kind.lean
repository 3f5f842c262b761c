/-!
# Kinds

The closed set of kinds a value may have, and which kind may be read as which.
Besides itself a kind takes a null, a binary takes a string, and a date or a
time takes a number.
-/

namespace Conform

/-- What a value is meant to be. -/
inductive Kind where
  | object
  | string
  | date
  | time
  | binary
  | number
  | boolean
  | null
  deriving DecidableEq, Repr, Inhabited

namespace Kind

def all : List Kind := [object, string, date, time, binary, number, boolean, null]

theorem mem_all (kind : Kind) : kind ∈ all := by cases kind <;> decide

def keyword : Kind → String
  | object => "object"
  | string => "string"
  | date => "date"
  | time => "time"
  | binary => "binary"
  | number => "number"
  | boolean => "boolean"
  | null => "null"

def ofKeyword? (word : String) : Option Kind := all.find? (·.keyword == word)

/-- The kind with this keyword, where the case of ASCII letters does not matter. -/
def ofText? (word : String) : Option Kind := ofKeyword? word.toLower

/-- The kinds, besides itself, that a value of this kind may be turned into. -/
def targets : Kind → List Kind
  | string => [binary]
  | number => [date, time]
  | object | date | time | binary | boolean | null => []

/-- Whether a value of kind `source` may be turned into this kind. -/
def accepts (target source : Kind) : Bool :=
  source == null || source == target || source.targets.contains target

/-- A list of such values has a stored form. -/
def hasArrayForm : Kind → Bool
  | object | null => false
  | string | date | time | binary | number | boolean => true

@[simp] theorem accepts_self (kind : Kind) : kind.accepts kind = true := by
  cases kind <;> decide

@[simp] theorem accepts_null (kind : Kind) : kind.accepts null = true := by
  cases kind <;> decide

theorem ofKeyword?_keyword (kind : Kind) : ofKeyword? kind.keyword = some kind := by
  cases kind <;> decide

end Kind

end Conform
