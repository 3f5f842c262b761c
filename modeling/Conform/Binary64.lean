/-!
# Binary floating point numbers of 64 bits

A number is its bit pattern: a sign, eleven bits of exponent and fifty-two of
fraction. All arithmetic here goes through exact integers and is rounded once,
to the nearest number and of two equally near to the one with even pattern.
-/

namespace Conform

/-- A floating point number given by its bits, the sign first. -/
structure Binary64 where
  bits : UInt64
  deriving DecidableEq, Repr, Inhabited

namespace Binary64

def isNegative (x : Binary64) : Bool := decide (0x8000000000000000 ≤ x.bits.toNat)

def exponentField (x : Binary64) : Nat := x.bits.toNat / 0x10000000000000 % 0x800

def fraction (x : Binary64) : Nat := x.bits.toNat % 0x10000000000000

def isFinite (x : Binary64) : Bool := decide (x.exponentField < 2047)

def isNaN (x : Binary64) : Bool := x.exponentField == 2047 && x.fraction != 0

def isZero (x : Binary64) : Bool := x.exponentField == 0 && x.fraction == 0

/-- The whole number that the exponent scales, the hidden bit included. -/
def significand (x : Binary64) : Nat :=
  if x.exponentField = 0 then x.fraction else 0x10000000000000 + x.fraction

/-- The power of two that scales the significand of a finite number. -/
def exponent (x : Binary64) : Int := max (x.exponentField : Int) 1 - 1075

def nan : Binary64 := ⟨0x7ff8000000000000⟩

/-- Equality of numbers: zeros agree whatever their sign; what is no number agrees with nothing. -/
def agrees (x y : Binary64) : Bool :=
  !x.isNaN && !y.isNaN && (x.bits == y.bits || x.isZero && y.isZero)

/-- The bits of a sign and of a magnitude pattern; patterns past the last finite one become
infinite. -/
def pack (negative : Bool) (magnitude : Nat) : Binary64 :=
  ⟨UInt64.ofNat ((if negative then 0x8000000000000000 else 0) + min magnitude 0x7ff0000000000000)⟩

/-- The whole number nearest to a quotient, and of two equally near the even one. -/
def nearest (numerator denominator : Nat) : Nat :=
  let quotient := numerator / denominator
  let rest := 2 * (numerator % denominator)
  if denominator < rest ∨ (rest = denominator ∧ quotient % 2 = 1) then quotient + 1 else quotient

/-- The exponent of two of the leading bit of a quotient of positive numbers. -/
def leadingExponent (numerator denominator : Nat) : Int :=
  let first : Int := (numerator.log2 : Int) - denominator.log2
  if denominator <<< first.toNat ≤ numerator <<< (-first).toNat then first else first - 1

def ofRatio (negative : Bool) (numerator denominator : Nat) : Binary64 :=
  if numerator = 0 then pack negative 0
  else
    let scale := max (leadingExponent numerator denominator - 52) (-1074)
    let scaled := nearest (numerator <<< (-scale).toNat) (denominator <<< scale.toNat)
    pack negative ((scale + 1074).toNat * 0x10000000000000 + scaled)

def ofInt (n : Int) : Binary64 := ofRatio (decide (n < 0)) n.natAbs 1

def negate (x : Binary64) : Binary64 := ⟨x.bits ^^^ 0x8000000000000000⟩

/-- The product of two finite numbers, rounded. -/
def times (x y : Binary64) : Binary64 :=
  let scale := x.exponent + y.exponent
  ofRatio (x.isNegative != y.isNegative)
    ((x.significand * y.significand) <<< scale.toNat) (1 <<< (-scale).toNat)

def dividedBy (x y : Binary64) : Binary64 :=
  let scale := x.exponent - y.exponent
  ofRatio (x.isNegative != y.isNegative)
    (x.significand <<< scale.toNat) (y.significand <<< (-scale).toNat)

/-- The whole part of a finite number; the fraction is dropped, toward zero. -/
def truncate (x : Binary64) : Int :=
  let magnitude := x.significand <<< x.exponent.toNat >>> (-x.exponent).toNat
  if x.isNegative then -(magnitude : Int) else magnitude

theorem agrees_comm (x y : Binary64) : x.agrees y = y.agrees x := by
  unfold agrees
  cases x.isNaN <;> cases y.isNaN <;> simp [Bool.and_comm, BEq.comm]

theorem agrees_self (x : Binary64) : x.agrees x = !x.isNaN := by
  cases h : x.isNaN <;> simp [agrees, h]

end Binary64

/-- A whole number brought into the range of sixty-four bits, at the near end if it lies outside. -/
def clampInt64 (n : Int) : Int64 :=
  if n < Int64.minValue.toInt then Int64.minValue
  else if Int64.maxValue.toInt < n then Int64.maxValue
  else Int64.ofInt n

end Conform
