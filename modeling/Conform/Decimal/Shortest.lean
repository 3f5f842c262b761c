import Conform.Binary64
/-!
# The shortest decimal

Every real between the two midpoints next to a floating point number rounds to
it, the midpoints themselves too when its significand is even. The shortest
decimal is the point of the coarsest decimal grid that lies there; of two
points of one grid it is the nearer, and the greater when both are equally near.
-/

namespace Conform

/-- The number `digits · 10 ^ exponent`. -/
structure Decimal where
  digits : Nat
  exponent : Int
  deriving DecidableEq, Repr, Inhabited

namespace Decimal

/-- The reals that round to a positive number, in quarters of its last place. -/
structure Basin where
  low : Nat
  value : Nat
  high : Nat
  /-- Whether the two ends round to the number as well. -/
  closed : Bool
  /-- The power of two of one quarter. -/
  scale : Int

/-- The basin of a finite number that is not zero; the gap below a power of two is half as wide. -/
def Basin.of (x : Binary64) : Basin :=
  let m := x.significand
  let narrow := x.fraction == 0 && decide (1 < x.exponentField)
  { low := 4 * m - (if narrow then 1 else 2)
    value := 4 * m
    high := 4 * m + 2
    closed := m % 2 == 0
    scale := x.exponent - 2 }

/-- The point of the grid of step `10 ^ k` in a basin that is nearest to its value. -/
def Basin.gridPoint? (basin : Basin) (k : Int) : Option Nat :=
  let up := Nat.pow 10 (-k).toNat <<< basin.scale.toNat
  let unit := Nat.pow 10 k.toNat <<< (-basin.scale).toNat
  let inside (d : Nat) : Bool :=
    if basin.closed then decide (basin.low * up ≤ d * unit) && decide (d * unit ≤ basin.high * up)
    else decide (basin.low * up < d * unit) && decide (d * unit < basin.high * up)
  let below := basin.value * up / unit
  let rest := basin.value * up % unit
  if inside below then
    if inside (below + 1) && decide (unit ≤ 2 * rest) then some (below + 1) else some below
  else if inside (below + 1) then some (below + 1)
  else none

/-- The first grid with a point, from the grid of step `10 ^ k` down through finer ones. -/
def Basin.search (basin : Basin) : Nat → Int → Decimal
  | 0, k => ⟨basin.value, k⟩
  | steps + 1, k =>
    match basin.gridPoint? k with
    | some digits => ⟨digits, k⟩
    | none => basin.search steps (k - 1)

/-- A power of ten above a positive number, by the bit length of its significand. -/
def ceilingExponent (x : Binary64) : Int :=
  (x.exponent + x.significand.log2 + 1) * 30103 / 100000 + 1

/-- The shortest decimal of a finite number, the sign left out. Nineteen grids are always enough. -/
def shortest (x : Binary64) : Decimal :=
  if x.isZero then ⟨0, 0⟩ else (Basin.of x).search 24 (ceilingExponent x)

end Decimal

end Conform
