import Conform.Failure
import Conform.Instant
import Conform.Value
/-!
# Kinds of values

Which kind a bare value suggests, which values a kind admits, and from which
kinds. Only dates restrict their values: they fall on midnight.
-/

namespace Conform

namespace Value

def kind? : Value → Option Kind
  | boolean _ => some .boolean
  | integer _ | float _ => some .number
  | string _ => some .string
  | null | array _ | binary _ => none

def millisFor (value : Value) (kind : Kind) : Except Failure Int64 :=
  match value.millis? with
  | some millis => .ok millis
  | none => .error (.illegalValue value.text kind)

end Value

/-- Checks one value, which is no list, against the rule of its kind. -/
def Kind.validate (kind : Kind) (value : Value) : Except Failure Unit :=
  match kind with
  | .date =>
    match value.millisFor .date with
    | .error failure => .error failure
    | .ok millis =>
      if Instant.isMidnight millis then .ok () else .error (.illegalValue value.text .date)
  | .object | .string | .time | .binary | .number | .boolean | .null => .ok ()

/-- Refuses a source kind whose values may not be turned into this kind. -/
def Kind.checkAccepts (target source : Kind) : Except Failure Unit :=
  if target.accepts source then .ok () else .error (.incompatible source target)

/-- Refuses the kinds whose values have no stored form as a list. -/
def Kind.requireArrayForm (kind : Kind) : Except Failure Unit :=
  if kind.hasArrayForm then .ok () else .error (.misuse (.noArrayForm kind))

end Conform
