import Conform.Decimal.Shortest
/-!
# Layouts of decimals

How the shortest decimal of a floating point number is set out as text. A
layout says which magnitudes are written in full, what follows a whole number,
how an exponent is signed, and what stands for the values that are no decimals.
-/

namespace Conform

namespace Decimal

/-- The choices in writing a floating point number. -/
structure Layout where
  /-- Leading digits at powers of ten in this range are written in full. -/
  isPlain : Int → Bool
  /-- Written after a whole number that is written in full. -/
  wholeSuffix : String
  /-- The sign of an exponent that is not negative. -/
  exponentPlus : String
  nan : String
  infinite : String

/-- Texts for readers: all digits in full, whole numbers bare. -/
def Layout.readable : Layout := ⟨fun _ => true, "", "", "NaN", "inf"⟩

/-- Texts in documents: in full from `1e-5` up to below `1e16`, and whole numbers end in `.0`. -/
def Layout.compact : Layout :=
  ⟨fun lead => decide (-5 ≤ lead) && decide (lead < 16), ".0", "+", "null", "null"⟩

/-- The digits with the point `whole` places from the left; zeros fill the gap on either side. -/
def Layout.plain (layout : Layout) (digits : List Char) (whole : Int) : String :=
  if whole ≤ 0 then
    String.ofList ('0' :: '.' :: List.replicate (-whole).toNat '0' ++ digits)
  else if digits.length ≤ whole.toNat then
    String.ofList (digits ++ List.replicate (whole.toNat - digits.length) '0') ++
      layout.wholeSuffix
  else
    String.ofList (digits.take whole.toNat ++ '.' :: digits.drop whole.toNat)

/-- The digits with the point after the first, and the power of ten behind them. -/
def Layout.scientific (layout : Layout) (digits : List Char) (lead : Int) : String :=
  let mantissa := match digits with
    | d :: rest@(_ :: _) => d :: '.' :: rest
    | _ => digits
  let sign := if lead < 0 then "-" else layout.exponentPlus
  String.ofList (mantissa ++ 'e' :: (sign.toList ++ Nat.toDigits 10 lead.natAbs))

def Layout.magnitude (layout : Layout) (decimal : Decimal) : String :=
  let digits := Nat.toDigits 10 decimal.digits
  let whole := digits.length + decimal.exponent
  if layout.isPlain (whole - 1) then layout.plain digits whole
  else layout.scientific digits (whole - 1)

def Layout.write (layout : Layout) (x : Binary64) : String :=
  if x.isNaN then layout.nan
  else
    let body := if x.isFinite then layout.magnitude (shortest x) else layout.infinite
    if x.isNegative then "-" ++ body else body

end Decimal

end Conform
