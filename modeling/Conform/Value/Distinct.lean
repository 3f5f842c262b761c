import Conform.Cardinality
import Conform.Value
/-!
# Distinct values

A set keeps of values that agree only the first. Values that agree with
nothing, themselves included, are all kept.
-/

namespace Conform

/-- The values that agree with none kept before, after those kept already. -/
def distinctAfter (kept : List Value) : List Value → List Value
  | [] => kept
  | value :: rest =>
    if kept.any (·.agrees value) then distinctAfter kept rest
    else distinctAfter (kept ++ [value]) rest

/-- The list a cardinality makes of values. -/
def Cardinality.restrict (cardinality : Cardinality) (values : List Value) : List Value :=
  match cardinality with
  | .set => distinctAfter [] values
  | .single | .multiset => values

end Conform
