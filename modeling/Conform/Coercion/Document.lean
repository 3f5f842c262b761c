import Conform.Coercion.Pass
import Conform.Json.Written
/-!
# Settings in documents

Settings are kept as an object with the zone under its key, or as a list of
the zone alone; without it the zone is that of Greenwich. Reading goes from
left to right and ends at the first fault, so that an unknown zone is told
even when the text behind it is no document.
-/

namespace Conform.Settings

def zoneKey : String := "default_timezone"

def unreadable (reason : Unreadable) : Halt := .failure (.misuse (.unreadableSettings reason))

/-- The zone in the string of a token. -/
def zoneOf (atlas : Atlas) : Token → Except Halt Zone
  | .string (some id) => do
    match ← Zone.resolve atlas id with
    | some zone => return zone
    | none => throw (unreadable (.unknownZone id))
  | _ => .error (unreadable .malformed)

def atEnd (zone : Zone) : List Token → Except Halt Settings
  | [] => .ok ⟨zone⟩
  | _ :: _ => .error (unreadable .malformed)

/-- The zone in the rest of an object, from a key on, when so many steps are enough. Unknown keys
are passed over; the zone may be given once. -/
def ofFields (atlas : Atlas) : Nat → Option Zone → List Token → Except Halt Settings
  | 0, _, _ => .error (unreadable .malformed)
  | steps + 1, zone?, .string (some key) :: .colon :: rest =>
    if key = zoneKey then
      match zone?, rest with
      | none, token :: rest =>
        match zoneOf atlas token, rest with
        | .error halt, _ => .error halt
        | .ok zone, .comma :: rest => ofFields atlas steps (some zone) rest
        | .ok zone, .closeObject :: rest => atEnd zone rest
        | .ok _, _ => .error (unreadable .malformed)
      | _, _ => .error (unreadable .malformed)
    else
      match Written.read? rest with
      | some (_, .comma :: rest) => ofFields atlas steps zone? rest
      | some (_, .closeObject :: rest) => atEnd (zone?.getD .utc) rest
      | _ => .error (unreadable .malformed)
  | _, _, _ => .error (unreadable .malformed)

def ofTokens (atlas : Atlas) : List Token → Except Halt Settings
  | .openObject :: .closeObject :: rest => atEnd .utc rest
  | .openObject :: rest => ofFields atlas (rest.length + 1) none rest
  | .openList :: .closeList :: rest => atEnd .utc rest
  | .openList :: token :: rest =>
    match zoneOf atlas token, rest with
    | .error halt, _ => .error halt
    | .ok zone, .closeList :: rest => atEnd zone rest
    | .ok _, _ => .error (unreadable .malformed)
  | _ => .error (unreadable .malformed)

def ofText (atlas : Atlas) (text : String) : Except Halt Settings :=
  ofTokens atlas (Token.ofText text)

def toDoc (settings : Settings) : Doc := .object [(zoneKey, .string settings.zone.id)]

end Conform.Settings
