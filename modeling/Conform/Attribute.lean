import Conform.Tree
import Conform.Value.Kind
/-!
# Attributes

What a node of a request carries: a kind, a cardinality and a value, each of
which may be left open. A value set together with kind and cardinality is a
list exactly when the cardinality holds several; a null is kept as no value.
-/

namespace Conform

/-- A value with what is declared about it. -/
structure Attribute where
  kind? : Option Kind
  cardinality? : Option Cardinality
  value? : Option Value
  deriving Repr

/-- A tree of attributes: what someone asks for. -/
abbrev Request := Tree Attribute

namespace Attribute

/-- Nothing declared and nothing held, as nodes have that only give structure. -/
def blank : Attribute := ⟨none, none, none⟩

instance : Inhabited Attribute := ⟨blank⟩

/-- A leaf without a value; its cardinality is open, so that it fits any. -/
def null : Attribute := ⟨some .null, none, none⟩

def scalar (kind : Kind) (value : Value) : Attribute := ⟨some kind, some .single, some value⟩

def string (s : String) : Attribute := scalar .string (.string s)

def number (value : Value) : Attribute := scalar .number value

def boolean (b : Bool) : Attribute := scalar .boolean (.boolean b)

def binary (bytes : List UInt8) : Attribute := scalar .binary (.binary bytes)

/-- A date, which is meant to fall on midnight. -/
def date (millis : Int64) : Attribute := scalar .date (.integer millis)

def time (millis : Int64) : Attribute := scalar .time (.integer millis)

/-- A scalar of the kind that its shape suggests, if it suggests one. -/
def guess? (value : Value) : Option Attribute := value.kind?.map fun kind => scalar kind value

/-- Value, kind and cardinality set together, where they fit. -/
def set (value : Value) (kind : Kind) (cardinality : Cardinality) : Except Failure Attribute :=
  if !value.isNull && cardinality.isMultiple != value.isArray then
    .error (.misuse (.misfit value.text cardinality))
  else .ok ⟨some kind, some cardinality, if value.isNull then none else some value⟩

def single (kind : Kind) (value : Value) : Except Failure Attribute := set value kind .single

def multiple (kind : Kind) (cardinality : Cardinality) (values : List Value) :
    Except Failure Attribute :=
  set (.array values) kind cardinality

/-- Sets value, kind and cardinality of an attribute, which stays as it is where they do not fit. -/
def assign (a : Attribute) (value : Value) (kind : Kind) (cardinality : Cardinality) :
    Attribute × Except Failure Unit :=
  match set value kind cardinality with
  | .ok changed => (changed, .ok ())
  | .error failure => (a, .error failure)

/-- Takes kind, cardinality and value over from another attribute, whether they fit or not. -/
def copyFrom (a other : Attribute) : Attribute :=
  { a with kind? := other.kind?, cardinality? := other.cardinality?, value? := other.value? }

def kind (a : Attribute) : Kind := a.kind?.getD .object

def cardinality (a : Attribute) : Cardinality := a.cardinality?.getD .single

def isMultiple (a : Attribute) : Bool := a.cardinality.isMultiple

def values (a : Attribute) : List Value := (a.value?.bind (·.items?)).getD []

def describe (a : Attribute) : String :=
  Conform.describe (some a.kind) a.cardinality

def agrees (a b : Attribute) : Bool :=
  a.kind? == b.kind? && a.cardinality? == b.cardinality? &&
    match a.value?, b.value? with
    | some v, some w => v.agrees w
    | none, none => true
    | _, _ => false

/-- The value fits the cardinality in effect: it is a list exactly when there may be several. -/
def Fits (a : Attribute) : Prop :=
  ∀ value, a.value? = some value → value.isArray = a.isMultiple

theorem fits_of_set {value : Value} {kind : Kind} {cardinality : Cardinality}
    {a : Attribute} (h : set value kind cardinality = .ok a) :
    a.Fits := by
  unfold set at h
  split at h
  · cases h
  · next hfit =>
    cases h
    intro held hheld
    cases hnull : value.isNull with
    | true => simp [hnull] at hheld
    | false =>
      simp only [hnull, Bool.false_eq_true, if_false, Option.some.injEq] at hheld
      subst hheld
      simp only [hnull, Bool.not_false, Bool.true_and, bne_iff_ne, ne_eq, Decidable.not_not]
        at hfit
      simp only [isMultiple, Attribute.cardinality, Option.getD_some, hfit]

end Attribute

end Conform
