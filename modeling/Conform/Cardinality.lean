import Conform.Kind
/-!
# Cardinalities

How many values a leaf holds: one, several without repeats, or several.
-/

namespace Conform

/-- How many values there are, and whether repeats count. -/
inductive Cardinality where
  | single
  | set
  | multiset
  deriving DecidableEq, Repr, Inhabited

namespace Cardinality

def all : List Cardinality := [single, set, multiset]

def keyword : Cardinality → String
  | single => "single"
  | set => "set"
  | multiset => "multiset"

def ofKeyword? (word : String) : Option Cardinality := all.find? (·.keyword == word)

/-- The cardinality with this keyword, where the case of ASCII letters does not matter. -/
def ofText? (word : String) : Option Cardinality := ofKeyword? word.toLower

/-- Values of this cardinality are written as a list. -/
def isMultiple : Cardinality → Bool
  | single => false
  | set | multiset => true

theorem isMultiple_eq_false_iff (cardinality : Cardinality) :
    cardinality.isMultiple = false ↔ cardinality = single := by
  cases cardinality <;> decide

theorem ofKeyword?_keyword (cardinality : Cardinality) :
    ofKeyword? cardinality.keyword = some cardinality := by
  cases cardinality <;> decide

end Cardinality

/-- Kind and cardinality as messages cite them, in capitals; without a kind the text says so. -/
def describe (kind? : Option Kind) (cardinality : Cardinality) : String :=
  (kind?.elim "untyped" Kind.keyword).toUpper ++ " " ++ cardinality.keyword.toUpper

end Conform
