import Conform.Cardinality
import Conform.Path
/-!
# Failures

What can go wrong, as causes. A failure of the data or of a schema is one of
six causes with its own code; every other failure is a misuse of an operation.
The wording of each lives in one place. A run may also be stopped where whole
numbers of 32 bits overflow; then there is no answer at all.
-/

namespace Conform

/-- What the check of a tree's links found. -/
inductive Corruption where
  | repeatedChild
  | foreignChild
  | missingChild
  | unlistedNode
  | cycle
  deriving DecidableEq, Repr

def Corruption.message : Corruption → String
  | repeatedChild => "duplicate child entry"
  | foreignChild => "child parent mismatch"
  | missingChild => "child not present in nodes"
  | unlistedNode => "orphaned node"
  | cycle => "cycle detected"

/-- Why a text could not be read as a document. -/
inductive Unreadable where
  | malformed
  | unknownZone (id : String)
  deriving DecidableEq, Repr

def Unreadable.message : Unreadable → String
  | malformed => "malformed document"
  | unknownZone id => s!"unknown timezone `{id}`"

/-- How an operation was used outside what it is for. -/
inductive Misuse where
  | unknownNode (id : Nat)
  | movedRoot
  | movedBelowItself
  | graftWithoutRoot
  | detachedRoot
  | brokenTree (corruption : Corruption)
  | noArrayForm (kind : Kind)
  | unknownKind (word : String)
  | unknownCardinality (word : String)
  | misfit (value : String) (cardinality : Cardinality)
  | untypedEntry
  | untypedLeaf (path : Path)
  | unnamedChild
  | untypedElement (value : String)
  | mixedElements (seen found : Kind)
  | nestedElement (document : String)
  | untypedValue (value : String)
  | unreadableSettings (reason : Unreadable)
  | unreadableSchema (reason : Unreadable)
  | other (text : String)
  deriving DecidableEq, Repr

def Misuse.message : Misuse → String
  | unknownNode id => s!"unknown node {id}"
  | movedRoot => "cannot move the root"
  | movedBelowItself => "cannot move a node below itself"
  | graftWithoutRoot => "grafted tree has no root"
  | detachedRoot => "cannot detach the root"
  | brokenTree corruption => corruption.message
  | noArrayForm kind => s!"type `{kind.keyword}` has no array representation"
  | unknownKind word => s!"unknown type `{word}`"
  | unknownCardinality word => s!"unknown cardinality `{word}`"
  | misfit value cardinality =>
    s!"payload `{value}` does not fit cardinality `{cardinality.keyword}`"
  | untypedEntry => "schema leaf has no type to verify options against"
  | untypedLeaf path => s!"schema leaf `{path.text}` has no type"
  | unnamedChild => "schema children must be named"
  | untypedElement value => s!"cannot type array element `{value}`"
  | mixedElements seen found =>
    s!"array mixes `{seen.keyword}` and `{found.keyword}` elements"
  | nestedElement document => s!"nested structure `{document}` inside an array"
  | untypedValue value => s!"cannot type value `{value}`"
  | unreadableSettings reason => s!"invalid coercion config: {reason.message}"
  | unreadableSchema reason => s!"invalid schema document: {reason.message}"
  | other text => text

/-- Why an operation failed. Values and descriptions are held in their written form. -/
inductive Failure where
  | optionsForbidden (kind : Kind)
  | unknownOption (kind : Kind) (allowed : String)
  | illegalOption (value option : String)
  | illegalValue (value : String) (kind : Kind)
  | incompatible (source target : Kind)
  | mismatch (path : Path) (found expected : String)
  | misuse (cause : Misuse)
  deriving DecidableEq, Repr

namespace Failure

/-- The stable identifier of a failure. -/
def code : Failure → String
  | optionsForbidden _ => "NO_OPTIONS"
  | unknownOption .. => "UNKNOWN_OPTION"
  | illegalOption .. => "ILLEGAL_OPTION"
  | illegalValue .. => "ILLEGAL_VALUE"
  | incompatible .. => "INCOMPATIBLE_TYPES"
  | mismatch .. => "WRONG_TYPES"
  | misuse _ => "INVALID_OPERATION"

def arguments : Failure → List String
  | optionsForbidden kind => [kind.keyword]
  | unknownOption kind allowed => [kind.keyword, allowed]
  | illegalOption value option => [value, option]
  | illegalValue value kind => [value, kind.keyword]
  | incompatible source target => [source.keyword, target.keyword]
  | mismatch path found expected => [path.text, found, expected]
  | misuse cause => [cause.message]

def message : Failure → String
  | optionsForbidden kind => s!"type `{kind.keyword}` may not have options"
  | unknownOption kind allowed =>
    s!"type `{kind.keyword}` may not have options other than `{allowed}`"
  | illegalOption value option => s!"illegal value `{value}` for option `{option}`"
  | illegalValue value kind => s!"illegal value `{value}` for type `{kind.keyword}`"
  | incompatible source target =>
    s!"cannot coerce from `{source.keyword}` to `{target.keyword}`"
  | mismatch path found expected =>
    s!"incompatible types for path `{path.text}`: found `{found}` and `{expected}`"
  | misuse cause => s!"invalid operation: {cause.message}"

end Failure

def Kind.parse (word : String) : Except Failure Kind :=
  match Kind.ofText? word with
  | some kind => .ok kind
  | none => .error (.misuse (.unknownKind word))

def Cardinality.parse (word : String) : Except Failure Cardinality :=
  match Cardinality.ofText? word with
  | some cardinality => .ok cardinality
  | none => .error (.misuse (.unknownCardinality word))

/-- The operation on whole numbers of 32 bits whose result does not fit. -/
inductive Overflow where
  | addition
  | multiplication
  deriving DecidableEq, Repr

def Overflow.message : Overflow → String
  | addition => "attempt to add with overflow"
  | multiplication => "attempt to multiply with overflow"

/-- Why a run ends without a result: an operation fails, or a step leaves its 32 bits and stops the
run there. -/
inductive Halt where
  | failure (cause : Failure)
  | overflow (cause : Overflow)
  deriving DecidableEq, Repr

instance : MonadLift (Except Failure) (Except Halt) := ⟨Except.mapError .failure⟩

instance : MonadLift (Except Overflow) (Except Halt) := ⟨Except.mapError .overflow⟩

section Steps

variable {ε α β : Type}

theorem pure_eq_ok_iff {value result : α} :
    (pure value : Except ε α) = .ok result ↔ result = value :=
  ⟨fun h => (Except.ok.inj h).symm, fun h => congrArg Except.ok h.symm⟩

theorem bind_eq_ok_iff {first : Except ε α} {next : α → Except ε β} {result : β} :
    (first >>= next) = .ok result ↔ ∃ value, first = .ok value ∧ next value = .ok result := by
  cases first <;> simp [bind, Except.bind]

theorem map_eq_ok_iff {first : Except ε α} {change : α → β} {result : β} :
    first.map change = .ok result ↔ ∃ value, first = .ok value ∧ change value = result := by
  cases first <;> simp [Except.map]

theorem map_eq_error_iff {first : Except ε α} {change : α → β} {cause : ε} :
    first.map change = .error cause ↔ first = .error cause := by
  cases first <;> simp [Except.map]

@[simp] theorem lift_ok (value : α) :
    (liftM (.ok value : Except Failure α) : Except Halt α) = .ok value := rfl

@[simp] theorem lift_error (failure : Failure) :
    (liftM (.error failure : Except Failure α) : Except Halt α) = .error (.failure failure) := rfl

@[simp] theorem lift_eq_ok_iff {step : Except Failure α} {value : α} :
    (liftM step : Except Halt α) = .ok value ↔ step = .ok value := by
  cases step <;> simp

@[simp] theorem lift_overflow_ok (value : α) :
    (liftM (.ok value : Except Overflow α) : Except Halt α) = .ok value := rfl

@[simp] theorem lift_overflow_error (overflow : Overflow) :
    (liftM (.error overflow : Except Overflow α) : Except Halt α) = .error (.overflow overflow) :=
  rfl

end Steps

end Conform
