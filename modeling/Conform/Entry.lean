import Conform.Keyed
import Conform.Tree
import Conform.Value
import Conform.Zone
/-!
# Entries

What a node of a schema expects of the attribute at the same place: a kind, a
cardinality, and options. Only times have an option, which names their zone.
-/

namespace Conform

/-- Options in the order of their keys. -/
structure Options where
  pairs : List (String × Value)
  sorted : Keyed.Sorted pairs

namespace Options

def empty : Options := ⟨[], .nil⟩

instance : Inhabited Options := ⟨empty⟩

def insert (options : Options) (key : String) (value : Value) : Options :=
  ⟨Keyed.insert key value options.pairs, Keyed.sorted_insert key value options.sorted⟩

def ofList (pairs : List (String × Value)) : Options :=
  ⟨Keyed.ofList pairs, Keyed.sorted_ofList pairs⟩

def get? (options : Options) (key : String) : Option Value := options.pairs.lookup key

def contains (options : Options) (key : String) : Bool := (options.get? key).isSome

def keys (options : Options) : List String := options.pairs.map (·.1)

def isEmpty (options : Options) : Bool := options.pairs.isEmpty

/-- The same keys with values that agree. -/
def agrees (a b : Options) : Bool :=
  a.keys == b.keys && Value.allAgree (a.pairs.map (·.2)) (b.pairs.map (·.2))

end Options

/-- What is expected at one place. -/
structure Entry where
  kind? : Option Kind
  cardinality? : Option Cardinality
  options : Options

/-- A tree of entries: what a request may hold. -/
abbrev Schema := Tree Entry

namespace Entry

/-- Nothing expected, as nodes have that only group others. -/
def blank : Entry := ⟨none, none, .empty⟩

instance : Inhabited Entry := ⟨blank⟩

def ofKind (kind : Kind) : Entry := { blank with kind? := some kind }

def cardinality (entry : Entry) : Cardinality := entry.cardinality?.getD .single

def withOption (entry : Entry) (key : String) (value : Value) : Entry :=
  { entry with options := entry.options.insert key value }

def describe (entry : Entry) : String := Conform.describe entry.kind? entry.cardinality

/-- The zone that the option names; none without the option or with a null in it. -/
def zone? (atlas : Atlas) (entry : Entry) : Except Halt (Option Zone) :=
  match entry.options.get? Zone.optionName with
  | none => .ok none
  | some value =>
    if value.isNull then .ok none
    else
      match value.string?.elim (.ok none) (Zone.resolve atlas) with
      | .ok (some zone) => .ok (some zone)
      | .ok none => .error (.failure (.illegalOption value.text Zone.optionName))
      | .error overflow => .error (.overflow overflow)

/-- Checks the options against what the kind allows. -/
def verify (atlas : Atlas) (entry : Entry) : Except Halt Unit :=
  match entry.kind? with
  | none => .error (.failure (.misuse .untypedEntry))
  | some .time =>
    if entry.options.keys.any (· != Zone.optionName) then
      .error (.failure (.unknownOption .time Zone.optionName))
    else (entry.zone? atlas).map fun _ => ()
  | some kind =>
    if entry.options.isEmpty then .ok () else .error (.failure (.optionsForbidden kind))

/-- Whether two entries expect the same kind and the same number of values. -/
def sameShape (a b : Entry) : Bool := a.kind? == b.kind? && a.cardinality == b.cardinality

/-- Equality of entries, options compared as values. -/
def agrees (a b : Entry) : Bool :=
  a.kind? == b.kind? && a.cardinality? == b.cardinality? && a.options.agrees b.options

end Entry

end Conform
