/-!
# Instants

An instant is a number of milliseconds since the start of 1970 in Greenwich.
The calendar reaches from the year -262143 to the year 262142; outside it an
instant has no date.
-/

namespace Conform.Instant

def first : Int := -8334601228800000

def last : Int := 8210266876799999

def day : Int := 86400000

def inCalendar (millis : Int64) : Bool :=
  decide (first ≤ millis.toInt) && decide (millis.toInt ≤ last)

/-- Whether the instant is the first millisecond of a day in Greenwich. -/
def isMidnight (millis : Int64) : Bool :=
  inCalendar millis && decide (millis.toInt % day = 0)

end Conform.Instant
