import Conform.Failure
import Conform.Text.Blank
/-!
# Offsets written after GMT

A zone that is no region may be written as `GMT` with an offset behind it, as
in `GMT+2`, `GMT-05:30` or `GMT+0530`. Hours and minutes are read as whole
numbers of 32 bits, each with a sign of its own if it has one. They are bounded
from above, but not from below, before the seconds are worked out in 32 bits:
a step whose result does not fit stops the run.
-/

namespace Conform.Greenwich

/-- An offset in seconds, of less than a day either way. -/
structure Offset where
  seconds : Int
  above : -86400 < seconds
  below : seconds < 86400
  deriving DecidableEq, Repr

namespace Offset

def zero : Offset := ⟨0, by decide, by decide⟩

def ofSeconds? (seconds : Int) : Option Offset :=
  if h : -86400 < seconds ∧ seconds < 86400 then some ⟨seconds, h.1, h.2⟩ else none

end Offset

def afterMark? : List Char → Option (List Char)
  | [] => none
  | c :: rest =>
    if ['G', 'M', 'T'].isPrefixOf (c :: rest) then some (rest.drop 2) else afterMark? rest

/-- The value of a row of decimal digits; none when it is empty or holds anything else. -/
def digitsValue? (cs : List Char) : Option Nat :=
  if cs.isEmpty || !cs.all Char.isDigit then none
  else some (cs.foldl (fun n c => 10 * n + (c.toNat - '0'.toNat)) 0)

def Fits (n : Int) : Prop := Int32.minValue.toInt ≤ n ∧ n ≤ Int32.maxValue.toInt

instance (n : Int) : Decidable (Fits n) := inferInstanceAs (Decidable (_ ∧ _))

/-- A whole number of 32 bits with one sign or none before its digits. -/
def integer? (cs : List Char) : Option Int :=
  let signed : Option Int := match cs with
    | '+' :: digits => (digitsValue? digits).map Int.ofNat
    | '-' :: digits => (digitsValue? digits).map fun n => -(n : Int)
    | digits => (digitsValue? digits).map Int.ofNat
  signed.bind fun n => if Fits n then some n else none

/-- The hours and the minutes of an offset: cut at the first colon, else before the last two
digits. -/
def cut (cs : List Char) : List Char × List Char :=
  if cs.contains ':' then (cs.takeWhile (· != ':'), (cs.dropWhile (· != ':')).drop 1)
  else if 2 < cs.length then (cs.take (cs.length - 2), cs.drop (cs.length - 2))
  else (cs, ['0'])

/-- The sign in front of an offset with the hours and minutes behind it. -/
structure Reading where
  west : Bool
  hours : Int
  minutes : Int
  deriving DecidableEq, Repr

/-- Hours up to 23 and minutes up to 59 behind a sign. -/
def clock? (west : Bool) (cs : List Char) : Option Reading := do
  let hours ← integer? (cut cs).1
  let minutes ← integer? (cut cs).2
  if 23 < hours ∨ 59 < minutes then none else some ⟨west, hours, minutes⟩

/-- The sign with hours and minutes in the text behind the mark, blanks around it aside. -/
def reading? (text : List Char) : Option Reading :=
  match trimBlanks text with
  | [] => none
  | sign :: rest =>
    if (sign :: rest).any (fun c => 128 ≤ c.toNat) then none
    else if sign = '+' then clock? false rest
    else if sign = '-' then clock? true rest
    else none

def fitted (operation : Overflow) (n : Int) : Except Overflow Int :=
  if Fits n then .ok n else .error operation

/-- The seconds of a reading, worked out step by step. -/
def Reading.toSeconds (reading : Reading) : Except Overflow Int := do
  let hours ← fitted .multiplication (reading.hours * 3600)
  let minutes ← fitted .multiplication (reading.minutes * 60)
  let forward ← fitted .addition (hours + minutes)
  fitted .multiplication (if reading.west then -forward else forward)

/-- The offset in the text behind the mark; none when it cannot be read. -/
def offset? (text : List Char) : Except Overflow (Option Offset) :=
  if (trimBlanks text).isEmpty then .ok (some .zero)
  else
    match reading? text with
    | none => .ok none
    | some reading => reading.toSeconds.map Offset.ofSeconds?

end Conform.Greenwich
