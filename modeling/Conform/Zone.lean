import Conform.Instant
import Conform.Zone.Greenwich
/-!
# Zones

A zone gives the offset of local time from Greenwich at an instant. It is a
region known by its name, or any text with `GMT` in it, read as a fixed offset
that is zero when the text does not say one. Which regions there are, and how
their clocks are set, is what an atlas says.
-/

namespace Conform

/-- The names of regions with the seconds by which their clocks are ahead of Greenwich, from one
millisecond to the next. No clock is set a day or more apart from Greenwich. -/
structure Atlas where
  isKnown : String → Bool
  secondsAt : String → Int → Int
  withinDay (name : String) (millis : Int) :
    -86400 < secondsAt name millis ∧ secondsAt name millis < 86400

/-- Where clocks show the same time. -/
inductive Zone where
  | region (name : String)
  /-- A text with `GMT` in it and the offset it stands for. -/
  | fixed (id : String) (offset : Greenwich.Offset)
  deriving DecidableEq, Repr

namespace Zone

def optionName : String := "timezone"

def utc : Zone := region "UTC"

instance : Inhabited Zone := ⟨utc⟩

def id : Zone → String
  | region name => name
  | fixed id _ => id

/-- The zone a text names; the names of regions come first. -/
def resolve (atlas : Atlas) (text : String) : Except Overflow (Option Zone) :=
  if atlas.isKnown text then .ok (some (region text))
  else
    match Greenwich.afterMark? text.toList with
    | none => .ok none
    | some rest =>
      (Greenwich.offset? rest).map fun found? => some (fixed text (found?.getD .zero))

/-- The zone a text names, or the failure of the option that holds it. -/
def ofText (atlas : Atlas) (text : String) : Except Halt Zone := do
  match ← resolve atlas text with
  | some zone => return zone
  | none => throw (.failure (.illegalOption text optionName))

def secondsAt (atlas : Atlas) (zone : Zone) (millis : Int) : Int :=
  match zone with
  | region name => atlas.secondsAt name millis
  | fixed _ offset => offset.seconds

/-- The offset in milliseconds at an instant; outside the calendar there is none. -/
def offsetAt (atlas : Atlas) (zone : Zone) (millis : Int64) : Int64 :=
  if Instant.inCalendar millis then Int64.ofInt (zone.secondsAt atlas millis.toInt * 1000) else 0

end Zone

end Conform
