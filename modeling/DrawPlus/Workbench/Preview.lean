import DrawPlus.Number.Double

/-!
# Size of the preview

A picture larger than the preview is reduced so that its longer side fits. The ratio of the sides
and the reduced side are double-precision numbers, of which the integer part is taken.
-/

namespace DrawPlus

namespace Double

/-- A natural number times a double; infinite and undefined values stay. -/
def times (n : Nat) (x : Double) : Double :=
  match x.magnitude with
  | .finite mantissa exponent =>
    let (up, down) := scale mantissa exponent
    ofRatio x.isNegative (n * up) down
  | _ => x

/-- A natural number divided by a double that is not zero; other values give zero. -/
def into (n : Nat) (x : Double) : Double :=
  match x.magnitude with
  | .finite mantissa exponent =>
    let (up, down) := scale mantissa exponent
    ofRatio x.isNegative (n * down) up
  | _ => ofParts x.isNegative 0

/-- The integer part of a finite double. -/
def truncate (x : Double) : Int :=
  match x.magnitude with
  | .finite mantissa exponent =>
    let (up, down) := scale mantissa exponent
    if x.isNegative then -((up / down : Nat) : Int) else (up / down : Nat)
  | _ => 0

end Double

inductive PreviewError where
  /-- its height is zero -/
  | flat
  /-- its sides have a ratio that is no finite number -/
  | ratioTooLarge
  /-- its reduced width is no finite number -/
  | sideTooLarge
  /-- its reduced size has no area -/
  | empty
deriving DecidableEq

def PreviewError.message : PreviewError → String
  | .flat => "division by zero"
  | .ratioTooLarge => "integer division result too large for a float"
  | .sideTooLarge => "cannot convert float infinity to integer"
  | .empty => "height and width must be > 0"

namespace Preview

/-- The longest side that the preview shows. -/
def limit : Nat := 500

/-- The ratio of two integers as a double. -/
def ratio (numerator denominator : Int) : Double :=
  Double.ofRatio (decide (numerator < 0) != decide (denominator < 0)) numerator.natAbs
    denominator.natAbs

/-- The size in which a picture is shown. The ratio of the sides is taken before anything else, so
that it must be finite even for a picture that needs no reducing. -/
def fitted (width height : Int) : Except PreviewError (Int × Int) :=
  if height = 0 then .error .flat
  else
    let aspect := ratio width height
    if aspect.magnitude = .infinite then .error .ratioTooLarge
    else if width ≤ limit ∧ height ≤ limit then .ok (width, height)
    else if aspect.gtInt 1 then .ok (limit, (Double.into limit aspect).truncate)
    else
      let side := Double.times limit aspect
      if side.magnitude = .infinite then .error .sideTooLarge else .ok (side.truncate, limit)

/-- The line printed when there is no preview. -/
def failureLine (reason : String) : String :=
  "Error updating preview: " ++ reason ++ "\n"

end Preview

end DrawPlus
