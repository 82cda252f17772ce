import DrawPlus.Number.Double

/-!
# Shortest decimals

A double is written with the fewest significant digits that read back as the same double; of
several such decimals the nearest to the value is taken. The digits are found by trying one digit,
two digits and so on: on each decimal grid the two neighbours of the value are compared with the
interval of numbers that round to the double.

How the digits are laid out is a separate matter (`Double.text`): positional notation when the
first digit stands between `10 ^ (-4)` and `10 ^ 15`, always with a decimal point, and otherwise
one digit before the point and an exponent with a sign and at least two figures.
-/

namespace DrawPlus.Double

/-- Decimal digits in `n`, at least one. -/
def decimalLength (n : Nat) : Nat :=
  (Nat.toDigits 10 n).length

/-- The exponent of the first significant digit of a positive quotient. -/
def leadingPlace (numerator denominator : Nat) : Int :=
  if denominator ≤ numerator then decimalLength (numerator / denominator) - 1
  else
    -- the least `j` with `denominator ≤ numerator * 10 ^ j`
    let ceiling := (denominator + numerator - 1) / numerator
    Int.negOfNat (decimalLength (ceiling - 1))

/-- A positive decimal: an integer and the power of ten it is multiplied by. -/
structure Decimal where
  digits : Nat
  exponent : Int
deriving DecidableEq

/-- The numbers that round to a double, scaled by `2 ^ (exponent - 2)`: the value lies at four
times the mantissa, and the two ends belong to the interval exactly when the mantissa is even. -/
structure Rounding where
  mantissa : Nat
  exponent : Int
  isLowestOfBinade : Bool

namespace Rounding

/-- The value itself, as a quotient. -/
def ratio (r : Rounding) : Nat × Nat :=
  scale r.mantissa r.exponent

/-- The lower end: half a unit below the value, a quarter at the bottom of a binade. -/
def low (r : Rounding) : Nat :=
  4 * r.mantissa - if r.isLowestOfBinade then 1 else 2

/-- The upper end, half a unit above the value. -/
def high (r : Rounding) : Nat :=
  4 * r.mantissa + 2

/-- Numerator and denominator of `digits * 10 ^ place` in units of `2 ^ (exponent - 2)`. -/
def units (r : Rounding) (digits : Nat) (place : Int) : Nat × Nat :=
  let (up, down) := scale 1 (r.exponent - 2)
  if 0 ≤ place then (digits * tenTo place.toNat * down, up)
  else (digits * down, tenTo (-place).toNat * up)

/-- `digits * 10 ^ place` rounds to the double. -/
def admits (r : Rounding) (digits : Nat) (place : Int) : Bool :=
  let (n, d) := r.units digits place
  if r.mantissa % 2 == 0 then r.low * d ≤ n && n ≤ r.high * d
  else r.low * d < n && n < r.high * d

/-- The value's two neighbours on the grid of multiples of `10 ^ place`, the lower first. -/
def neighbours (r : Rounding) (place : Int) : Nat × Nat :=
  let (n, d) := r.ratio
  let below :=
    if 0 ≤ place then n / (d * tenTo place.toNat) else n * tenTo (-place).toNat / d
  (below, below + 1)

/-- `below * 10 ^ place` is at most as far from the value as its upper neighbour; a tie goes to
the even one. -/
def prefersBelow (r : Rounding) (below : Nat) (place : Int) : Bool :=
  let (n, d) := r.units (2 * below + 1) place
  let middle := 8 * r.mantissa * d
  middle < n || (middle == n && below % 2 == 0)

/-- A decimal with its last digit at `place` that rounds to the double, the nearer if two do. -/
def onGrid? (r : Rounding) (place : Int) : Option Decimal :=
  let (below, above) := r.neighbours place
  match r.admits below place, r.admits above place with
  | true, true => some ⟨if r.prefersBelow below place then below else above, place⟩
  | true, false => some ⟨below, place⟩
  | false, true => some ⟨above, place⟩
  | false, false => none

/-- The first grid with a hit, trying `count` grids from `place` downward. -/
def search (r : Rounding) : (count : Nat) → (place : Int) → Option Decimal
  | 0, _ => none
  | count + 1, place => (r.onGrid? place).or (r.search count (place - 1))

end Rounding

/-- The shortest decimal that reads back as a finite, nonzero double. Seventeen digits always
suffice. -/
def shortest? (mantissa : Nat) (exponent : Int) : Option Decimal :=
  let r : Rounding := ⟨mantissa, exponent, mantissa == twoTo 52 && exponent != -1074⟩
  let (n, d) := r.ratio
  r.search 17 (leadingPlace n d)

/-- Digits without trailing zeros; the exponent grows by the number dropped. -/
def Decimal.normal (x : Decimal) : List Char × Int :=
  let digits := Nat.toDigits 10 x.digits
  let kept := (digits.reverse.dropWhile (· == '0')).reverse
  (kept, x.exponent + (digits.length - kept.length : Nat))

/-- The decimal exponents whose numbers are written without an exponent. -/
def isPositional (lead : Int) : Bool :=
  -4 ≤ lead && lead ≤ 15

/-- The exponent mark, a sign and at least two figures. -/
def exponentText (lead : Int) : List Char :=
  let figures := Nat.toDigits 10 lead.natAbs
  'e' :: (if lead < 0 then '-' else '+') ::
    (if figures.length < 2 then '0' :: figures else figures)

/-- `digits`, the first of which stands at the power `lead` of ten, laid out for reading. -/
def layOut (digits : List Char) (lead : Int) : List Char :=
  if isPositional lead then
    if lead < 0 then
      '0' :: '.' :: (List.replicate (-lead - 1).toNat '0' ++ digits)
    else
      let whole := lead.toNat + 1
      if digits.length ≤ whole then
        digits ++ List.replicate (whole - digits.length) '0' ++ ['.', '0']
      else digits.take whole ++ '.' :: digits.drop whole
  else
    match digits with
    | [] => []
    | [d] => d :: exponentText lead
    | d :: rest => d :: '.' :: (rest ++ exponentText lead)

/-- The characters of a double, its sign apart. -/
def magnitudeText (x : Double) : List Char :=
  match x.magnitude with
  | .infinite => ['i', 'n', 'f']
  | .undefined => ['n', 'a', 'n']
  | .finite mantissa exponent =>
    if mantissa = 0 then ['0', '.', '0']
    else
      match shortest? mantissa exponent with
      | none => []
      | some decimal =>
        let (digits, place) := decimal.normal
        layOut digits (place + digits.length - 1)

def text (x : Double) : String :=
  let hasSign := x.isNegative && x.magnitude != .undefined
  String.ofList (if hasSign then '-' :: x.magnitudeText else x.magnitudeText)

end DrawPlus.Double
