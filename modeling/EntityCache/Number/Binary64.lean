/-! Numbers of 64 bits: integers with a sign, and double-precision numbers as the bits that
encode them. A finite number is `significand * 2 ^ exponent`, read off the bits in exact arithmetic,
and every operation that rounds goes through `nearest`, which takes a ratio of naturals
to the closest number, ties to the even significand. -/
namespace EntityCache.Number

def FitsInt64 (i : Int) : Prop := Int64.minValue.toInt ≤ i ∧ i ≤ Int64.maxValue.toInt

instance (i : Int) : Decidable (FitsInt64 i) := inferInstanceAs (Decidable (_ ∧ _))

def toInt64? (i : Int) : Option Int64 := if FitsInt64 i then some (Int64.ofInt i) else none

def clampInt64 (i : Int) : Int64 :=
  if i < Int64.minValue.toInt then Int64.minValue
  else if Int64.maxValue.toInt < i then Int64.maxValue
  else Int64.ofInt i

end EntityCache.Number

namespace EntityCache

structure Binary64 where
  bits : UInt64
  deriving DecidableEq, Repr

namespace Binary64

def signWeight : Nat := 0x8000000000000000

/-- The size of the fraction field, two to the power 52. The exponent field is above it. -/
def fractionSize : Nat := 0x10000000000000

/-- The bits without the sign: magnitudes are ordered as these are. -/
def magnitude (x : Binary64) : Nat := x.bits.toNat % signWeight

def infinityMagnitude : Nat := 2047 * fractionSize

def isNegative (x : Binary64) : Bool := signWeight ≤ x.bits.toNat

def isNaN (x : Binary64) : Bool := infinityMagnitude < x.magnitude

def isInfinite (x : Binary64) : Bool := x.magnitude == infinityMagnitude

def isFinite (x : Binary64) : Bool := x.magnitude < infinityMagnitude

def isZero (x : Binary64) : Bool := x.magnitude == 0

def assemble (negative : Bool) (magnitude : Nat) : Binary64 :=
  ⟨UInt64.ofNat (if negative then signWeight + magnitude else magnitude)⟩

def zero : Binary64 := assemble false 0
def infinity (negative : Bool) : Binary64 := assemble negative infinityMagnitude

def nan : Binary64 := assemble false (infinityMagnitude + fractionSize / 2)

def negate (x : Binary64) : Binary64 := assemble (!x.isNegative) x.magnitude

def exponentField (x : Binary64) : Nat := x.magnitude / fractionSize

/-- A subnormal number lacks the hidden leading bit. -/
def significand (x : Binary64) : Nat :=
  if x.exponentField = 0 then x.magnitude % fractionSize
  else fractionSize + x.magnitude % fractionSize

def exponent (x : Binary64) : Int := max x.exponentField 1 - 1075

/-- A power of two; one for an exponent that is negative. -/
def twoPow (k : Int) : Nat := Nat.pow 2 k.toNat

def tenPow (k : Int) : Nat := Nat.pow 10 k.toNat

def divideToEven (num den : Nat) : Nat :=
  let q := num / den
  let r := num % den
  if 2 * r < den then q
  else if den < 2 * r then q + 1
  else if q % 2 = 0 then q else q + 1

/-- The exponent at which `num / den` has a significand of 53 bits, but not below the
least exponent there is. -/
def exponentFor (num den : Nat) : Int :=
  let e : Int := (Nat.log2 num : Int) - Nat.log2 den - 52
  let e := if num * twoPow (-e) / (den * twoPow e) < fractionSize then e - 1 else e
  max e (-1074)

/-- The closest number to the ratio `num / den`. A significand that rounds up to 54 bits
carries into the exponent, because the two fields are adjacent. -/
def nearest (negative : Bool) (num den : Nat) : Binary64 :=
  if num = 0 then assemble negative 0
  else
    let e := exponentFor num den
    let significand := divideToEven (num * twoPow (-e)) (den * twoPow e)
    assemble negative (min ((e + 1074).toNat * fractionSize + significand) infinityMagnitude)

def ofInt (i : Int) : Binary64 := nearest (i < 0) i.natAbs 1

def ratio (x : Binary64) : Nat × Nat :=
  (x.significand * twoPow x.exponent, twoPow (-x.exponent))

def truncate (x : Binary64) : Int :=
  let n : Int := (x.ratio.1 / x.ratio.2 : Nat)
  if x.isNegative then -n else n

/-- The integer part, clamped to 64 bits; zero for what is not a number. -/
def toInt64 (x : Binary64) : Int64 :=
  if x.isNaN then 0
  else if x.isInfinite then (if x.isNegative then Int64.minValue else Int64.maxValue)
  else Number.clampInt64 x.truncate

def isIntegral (x : Binary64) : Bool := x.isFinite && x.ratio.1 % x.ratio.2 == 0

def mulNearest (x y : Binary64) : Binary64 :=
  nearest (x.isNegative != y.isNegative) (x.ratio.1 * y.ratio.1) (x.ratio.2 * y.ratio.2)

def divNearest (x y : Binary64) : Binary64 :=
  nearest (x.isNegative != y.isNegative) (x.ratio.1 * y.ratio.2) (x.ratio.2 * y.ratio.1)

/-- The closest number to `digits * 10 ^ power`. Powers far outside the range of the
format are decided by the number of digits alone. -/
def ofDecimal (negative : Bool) (digits : Nat) (power : Int) : Binary64 :=
  let size : Int := (Nat.toDigits 10 digits).length + power
  if digits = 0 || size < -330 then assemble negative 0
  else if 310 < size then infinity negative
  else nearest negative (digits * tenPow power) (tenPow (-power))

end Binary64

end EntityCache
