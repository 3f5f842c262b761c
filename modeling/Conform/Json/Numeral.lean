import Conform.Json.Doc
/-!
# Numerals

What a written number means. A whole number without point and exponent stays
whole if it fits sixty-four bits. Any other number is a float: its digits are
taken into a word of sixty-four bits for as long as they fit, and the word is
scaled by a power of ten in floating point, so the last place may be off.
-/

namespace Conform

/-- A number as it is written. -/
structure Numeral where
  negative : Bool
  whole : List Char
  /-- The digits behind the point; empty without one. -/
  fraction : List Char
  /-- Whether the exponent is negative, and its digits. -/
  exponent? : Option (Bool × List Char)
  deriving DecidableEq, Repr

namespace Numeral

def wordMax : Nat := 0xffffffffffffffff

/-- Takes digits into a word until the next one no longer fits, and gives the digits left. -/
def absorb (limit : Nat) : Nat → List Char → Nat × List Char
  | word, [] => (word, [])
  | word, c :: rest =>
    let next := 10 * word + (c.toNat - '0'.toNat)
    if limit < next then (word, c :: rest) else absorb limit next rest

/-- The word scaled by a power of ten that has a float of its own. -/
def scaleOnce (x : Binary64) (exponent : Int) : Option Binary64 :=
  if 0 ≤ exponent then
    let scaled := x.times (.ofRatio false (Nat.pow 10 exponent.toNat) 1)
    if scaled.isFinite then some scaled else none
  else some (x.dividedBy (.ofRatio false (Nat.pow 10 (-exponent).toNat) 1))

/-- The word scaled by any power of ten; none when the result is too great. Three steps of `1e308`
turn every word into zero. -/
def scale : Nat → Binary64 → Int → Option Binary64
  | 0, x, _ => some x
  | steps + 1, x, exponent =>
    if exponent.natAbs ≤ 308 then scaleOnce x exponent
    else if x.isZero then some x
    else if 0 ≤ exponent then none
    else scale steps (x.dividedBy (.ofRatio false (Nat.pow 10 308) 1)) (exponent + 308)

def float? (negative : Bool) (word : Nat) (exponent : Int) : Option Binary64 :=
  (scale 4 (.ofRatio false word 1) exponent).map fun x => if negative then x.negate else x

/-- The word scaled by the written exponent as well; an exponent that does not fit thirty-two bits
makes zero or is too great. -/
def withExponent? (negative : Bool) (word : Nat) (exponent : Int) :
    Option (Bool × List Char) → Option Binary64
  | none => float? negative word exponent
  | some (down, digits) =>
    match absorb 0x7fffffff 0 digits with
    | (shift, []) => float? negative word (if down then exponent - shift else exponent + shift)
    | (_, _ :: _) =>
      if word ≠ 0 ∧ !down then none else some (.pack negative 0)

/-- The number as a document; none when it is too great for a float. -/
def doc? (numeral : Numeral) : Option Doc :=
  let (word, excess) := absorb wordMax 0 numeral.whole
  match numeral.fraction, numeral.exponent?, excess with
  | [], none, [] =>
    if !numeral.negative then some (.integer word)
    else if word = 0 ∨ 0x8000000000000000 < word then some (.float (.ofRatio true word 1))
    else some (.integer (-(word : Int)))
  | fraction, exponent?, excess =>
    let (word, unused) := absorb wordMax word fraction
    let exponent : Int := excess.length - (fraction.length - unused.length : Nat)
    (withExponent? numeral.negative word exponent exponent?).map .float

end Numeral

end Conform
