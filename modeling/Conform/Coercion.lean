import Conform.Attribute
import Conform.Entry
import Conform.Value.Distinct
/-!
# Coercion of one leaf

What becomes of an attribute that is held against an entry. The checks come in
a fixed order: cardinality, kind, list form, then the values one by one. Only
numbers change when they become dates or times; every other value stays.
-/

namespace Conform

/-- One value turned from one kind into another. A number becomes a time by the zone of the entry,
or by the default zone when the entry names none: it is local time and loses the offset. -/
def convert (atlas : Atlas) (source target : Kind) (value : Value) (entry : Entry) (zone : Zone) :
    Except Halt Value :=
  match source, target with
  | .number, .date => do
    let millis ← value.millisFor .date
    return .integer millis
  | .number, .time => do
    let millis ← value.millisFor .time
    let own? ← entry.zone? atlas
    return .integer (millis - (own?.getD zone).offsetAt atlas millis)
  | _, _ => .ok value

def convertChecked (atlas : Atlas) (source target : Kind) (entry : Entry) (zone : Zone)
    (value : Value) : Except Halt Value := do
  let converted ← convert atlas source target value entry zone
  target.validate converted
  return converted

def convertEach (atlas : Atlas) (source target : Kind) (entry : Entry) (zone : Zone) :
    List Value → Except Halt (List Value)
  | [] => .ok []
  | value :: rest => do
    let first ← convertChecked atlas source target entry zone value
    let others ← convertEach atlas source target entry zone rest
    return first :: others

namespace Entry

/-- The kind that an attribute is turned into: the entry's, else its own. -/
def target (entry : Entry) (a : Attribute) : Kind := entry.kind?.getD a.kind

/-- The cardinality that an entry asks for: its own, else that of the attribute. -/
def cardinalityFor (entry : Entry) (a : Attribute) : Cardinality :=
  entry.cardinality?.getD a.cardinality

/-- Cardinalities that are declared on both sides agree on whether there is a list. -/
def checkCardinality (entry : Entry) (path : Path) (a : Attribute) : Except Failure Unit :=
  match a.cardinality?, entry.cardinality? with
  | some found, some expected =>
    if found.isMultiple != expected.isMultiple then
      .error (.mismatch path a.describe entry.describe)
    else .ok ()
  | _, _ => .ok ()

def checkKind (entry : Entry) (a : Attribute) : Except Failure Unit :=
  (entry.target a).checkAccepts a.kind

/-- The list of an attribute that holds several, converted and restricted. -/
def conformList (atlas : Atlas) (entry : Entry) (zone : Zone) (a : Attribute) :
    Except Halt Value := do
  if !a.values.isEmpty then (entry.target a).requireArrayForm
  let values ← convertEach atlas a.kind (entry.target a) entry zone a.values
  return .array ((entry.cardinalityFor a).restrict values)

/-- The attribute as the entry wants it, or what ends its coercion first. -/
def conform (atlas : Atlas) (entry : Entry) (zone : Zone) (path : Path) (a : Attribute) :
    Except Halt Attribute := do
  entry.checkCardinality path a
  entry.checkKind a
  if a.isMultiple then
    let value ← entry.conformList atlas zone a
    Attribute.set value (entry.target a) (entry.cardinalityFor a)
  else
    match a.value? with
    | some held =>
      let value ← convertChecked atlas a.kind (entry.target a) entry zone held
      Attribute.set value (entry.target a) a.cardinality
    | none => Attribute.set .null (entry.target a) (entry.cardinalityFor a)

end Entry

end Conform
