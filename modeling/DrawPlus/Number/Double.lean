/-!
# Double-precision numbers

A double is kept by its 64 bits and is only ever read from a decimal numeral, compared with an
integer and written back. All three are done in exact integer arithmetic: `magnitude` gives the
integer mantissa and the binary exponent behind the bits, and `ofRatio` goes the other way,
rounding a quotient of integers to the nearest double with ties to the even mantissa.
-/

namespace DrawPlus

/-- A double-precision number, by its bits: sign, eleven bits of exponent, 52 of fraction. -/
structure Double where
  bits : UInt64
deriving DecidableEq

namespace Double

def twoTo (k : Nat) : Nat := Nat.pow 2 k

def tenTo (k : Nat) : Nat := Nat.pow 10 k

/-- What a double stands for, its sign apart. -/
inductive Magnitude where
  | finite (mantissa : Nat) (exponent : Int)
  | infinite
  | undefined
deriving DecidableEq

/-- The sign bit. -/
def isNegative (x : Double) : Bool :=
  twoTo 63 ≤ x.bits.toNat

/-- The eleven bits of biased exponent. -/
def exponentField (x : Double) : Nat :=
  x.bits.toNat / twoTo 52 % twoTo 11

/-- The 52 bits of fraction. -/
def fractionField (x : Double) : Nat :=
  x.bits.toNat % twoTo 52

/-- The absolute value as `mantissa * 2 ^ exponent`, unless it is infinite or undefined. -/
def magnitude (x : Double) : Magnitude :=
  if x.exponentField = 0 then .finite x.fractionField (-1074)
  else if x.exponentField < 2047 then
    .finite (twoTo 52 + x.fractionField) (x.exponentField - 1075)
  else if x.fractionField = 0 then .infinite
  else .undefined

/-- Put a sign before an absolute value given by its low 63 bits. -/
def ofParts (negative : Bool) (low : Nat) : Double :=
  ⟨UInt64.ofNat (if negative then twoTo 63 + low else low)⟩

def infinityBits : Nat := 2047 * twoTo 52

def infinity (negative : Bool) : Double :=
  ofParts negative infinityBits

/-- The quiet undefined value. -/
def undefined : Double :=
  ofParts false (2047 * twoTo 52 + twoTo 51)

/-- `numerator / denominator` rounded to the nearest integer, a tie to the even one. -/
def roundQuotient (numerator denominator : Nat) : Nat :=
  let quotient := numerator / denominator
  let twice := 2 * (numerator % denominator)
  if denominator < twice || (twice == denominator && quotient % 2 == 1) then quotient + 1
  else quotient

/-- `n * 2 ^ k` for an exponent of either sign, as a numerator and a denominator. -/
def scale (n : Nat) (k : Int) : Nat × Nat :=
  if 0 ≤ k then (n * twoTo k.toNat, 1) else (n, twoTo (-k).toNat)

/-- The exponent of the last mantissa place of the double nearest to a positive quotient. -/
def placeOf (numerator denominator : Nat) : Int :=
  let guess : Int := (numerator.log2 : Int) - denominator.log2 - 52
  let (up, down) := scale denominator guess
  -- the quotient is below `2 ^ 53` places of size `2 ^ guess`, and above half of that less one
  let place := if numerator * down < twoTo 52 * up then guess - 1 else guess
  max place (-1074)

/-- The double nearest to `numerator / denominator`, ties to even; infinite when too large. -/
def ofRatio (negative : Bool) (numerator denominator : Nat) : Double :=
  if numerator = 0 then ofParts negative 0
  else
    let place := placeOf numerator denominator
    let (up, down) := scale denominator place
    let mantissa := roundQuotient (numerator * down) up
    let low := (place + 1074).toNat * twoTo 52 + mantissa
    if low < infinityBits then ofParts negative low else infinity negative

/-- The double nearest to `digits * 10 ^ exponent`. -/
def ofDecimal (negative : Bool) (digits : Nat) (exponent : Int) : Double :=
  if 0 ≤ exponent then ofRatio negative (digits * tenTo exponent.toNat) 1
  else ofRatio negative digits (tenTo (-exponent).toNat)

/-- `x < n`; false when `x` is undefined. -/
def ltInt (x : Double) (n : Int) : Bool :=
  match x.magnitude with
  | .finite mantissa exponent =>
    let (up, down) := scale mantissa exponent
    (if x.isNegative then -(up : Int) else up) < n * down
  | .infinite => x.isNegative
  | .undefined => false

/-- `n < x`; false when `x` is undefined. -/
def gtInt (x : Double) (n : Int) : Bool :=
  match x.magnitude with
  | .finite mantissa exponent =>
    let (up, down) := scale mantissa exponent
    n * down < (if x.isNegative then -(up : Int) else up)
  | .infinite => !x.isNegative
  | .undefined => false

end Double

end DrawPlus
