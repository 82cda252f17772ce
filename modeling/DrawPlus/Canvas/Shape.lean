import DrawPlus.Canvas.Event
import DrawPlus.Loop

/-!
# Shapes

Each shape is a list of events that begins by setting its colour. Coordinates are integers. Filled
circles are drawn column by column with exact integer roots. Filled triangles and ellipses and the
outlines of curves are computed in floating point: the crossings of an edge with a row and the
half-height of an ellipse in single precision, the points of an outline in double precision at
angles that are summed up in single precision.

To go from one precision to the other, or from an integer to single precision, is to round to the
nearest number there is, a tie to the even mantissa. To go to an integer is to leave off the
fraction. Integers have 32 bits, and what is none of them, be it too large or not a number at all,
becomes the least one.

Filled triangles are scanned in 32 bits throughout: the corners are taken as words, and so are the
differences between them and the row that comes next.
-/

namespace DrawPlus.Shape

/-! ## Single and double precision -/

section

open Float.Model (Format UnpackedFloat)

def refit (format : Format) : UnpackedFloat → UnpackedFloat
  | .finite sign mantissa exponent _ => .round format sign mantissa exponent
  | number => number

/-- The double-precision number with the value of a single-precision one. -/
def widen (x : Float32) : Float :=
  .ofModel (.pack (refit .binary64 x.toModel.unpack))

/-- The single-precision number nearest to a double-precision one. -/
def narrow (x : Float) : Float32 :=
  .ofModel (.pack (refit .binary32 x.toModel.unpack))

/-- The single-precision number nearest to an integer. -/
def single (n : Int) : Float32 :=
  .ofModel (.ofInt n)

def leastWord : Int := -2147483648

/-- An integer in 32 bits: the one between `leastWord` and its opposite that has the same low
bits. -/
def word (n : Int) : Int := n.bmod 4294967296

def truncate (x : Float) : Int :=
  if x.isNaN then leastWord
  else
    let n := x.toModel.unpack.toInt leastWord leastWord
    if leastWord ≤ n ∧ n < -leastWord then n else leastWord

def truncateSingle (x : Float32) : Int :=
  truncate (widen x)

end

/-! ## Shapes -/

/-- Half the circumference of the unit circle. -/
def pi : Float := 3.14159265358979323846

/-- The integers from `first` to `last`, both included. -/
def span (first last : Int) : List Int :=
  (List.range (last - first + 1).toNat).map fun k : Nat => first + (k : Int)

/-- The offsets of the parallel copies that make a line of the given thickness. -/
def offsets (thickness : Int) : List Int :=
  span (Int.tdiv (-thickness) 2) (Int.tdiv thickness 2)

/-- The steps from the innermost to the outermost outline of the given thickness. -/
def rings (thickness : Int) : List Int :=
  span 0 (thickness - 1)

/-- The greatest integer whose square is at most `n`. -/
def integerRoot (n : Nat) : Nat :=
  if h : n = 0 then 0
  else
    let root := 2 * integerRoot (n / 4)
    if (root + 1) * (root + 1) ≤ n then root + 1 else root
termination_by n
decreasing_by exact Nat.div_lt_self (Nat.pos_of_ne_zero h) (by decide)

def line (x1 y1 x2 y2 : Int) (color : Color) (thickness : Int) : List Event :=
  .setColor color :: (offsets thickness).map fun i => .line x1 (y1 + i) x2 (y2 + i)

/-- A rectangle. The outlines of a thick one grow outward. -/
def rectangle (x y width height : Int) (filled : Bool) (color : Color) (thickness : Int) :
    List Event :=
  .setColor color ::
    if filled then [.fill x y width height]
    else (rings thickness).map fun i =>
      .outline (x - i) (y - i) (width + 2 * i) (height + 2 * i)

/-- Angles from `angle` on, below a full turn, a hundredth apart. The next angle is computed in
double precision and kept in single precision. -/
def anglesFrom : (count : Nat) → (angle : Float32) → List Float
  | 0, _ => []
  | count + 1, angle =>
    let wide := widen angle
    if wide < 2 * pi then wide :: anglesFrom count (narrow (wide + 0.01)) else []

/-- The angles at which outlines of curves are dotted: a full turn takes 629 of them. -/
def angles : List Float :=
  anglesFrom 640 0

def dots (centerX centerY radiusX radiusY : Int) : List Event :=
  angles.map fun angle =>
    .point (centerX + truncate (Float.ofInt radiusX * angle.cos))
      (centerY + truncate (Float.ofInt radiusY * angle.sin))

/-- The vertical half-extent of a disc at a horizontal distance from its centre. -/
def discHeight (radius dx : Int) : Int :=
  integerRoot (radius * radius - dx * dx).toNat

def circle (centerX centerY radius : Int) (filled : Bool) (color : Color) (thickness : Int) :
    List Event :=
  .setColor color ::
    if filled then (span (-radius) radius).map fun dx =>
      let height := discHeight radius dx
      .line (centerX + dx) (centerY - height) (centerX + dx) (centerY + height)
    else (rings thickness).flatMap fun t => dots centerX centerY (radius + t) (radius + t)

/-- The edge from one height to another crosses a row: one end is on it or above, the other is
below. -/
def crosses (y1 y2 y : Int) : Bool :=
  (y1 ≤ y && y < y2) || (y2 ≤ y && y < y1)

def crossing (x1 y1 x2 y2 y : Int) : Float32 :=
  single x1 + single (word (y - y1)) * single (word (x2 - x1)) / single (word (y2 - y1))

/-- Where the edges of a triangle meet a row. The third edge is looked at only while there are fewer
than two meeting points. -/
def crossings (x1 y1 x2 y2 x3 y3 y : Int) : List Float32 :=
  let first := if crosses y1 y2 y then [crossing x1 y1 x2 y2 y] else []
  let second := if crosses y2 y3 y then [crossing x2 y2 x3 y3 y] else []
  let found := first ++ second
  if crosses y3 y1 y && found.length < 2 then found ++ [crossing x3 y3 x1 y1 y] else found

/-- The part of a row that lies in a triangle. -/
def triangleRow (x1 y1 x2 y2 x3 y3 y : Int) : List Event :=
  match crossings x1 y1 x2 y2 x3 y3 y with
  | a :: b :: _ =>
    let a := widen a
    let b := widen b
    [.line (truncate (if b < a then b else a)) y (truncate (if b < a then a else b)) y]
  | _ => []

/-- One round of the loop over rows: the row is noted, and the next one follows. -/
def nextRow (state : Int × Array Int) : Int × Array Int :=
  (word (state.1 + 1), state.2.push state.1)

/-- The rows that a loop up to `last` goes through from `first` on. It is given as many rounds as
there are rows. -/
def rows (first last : Int) : List Int :=
  (repeatWhile (fun state => state.1 ≤ last) nextRow (last - first + 1).toNat (first, #[])).2.toList

/-- A triangle, row by row. -/
def scanned (x1 y1 x2 y2 x3 y3 : Int) : List Event :=
  (rows (min y1 (min y2 y3)) (max y1 (max y2 y3))).flatMap fun y => triangleRow x1 y1 x2 y2 x3 y3 y

def triangle (x1 y1 x2 y2 x3 y3 : Int) (filled : Bool) (color : Color) (thickness : Int) :
    List Event :=
  .setColor color ::
    if filled then scanned (word x1) (word y1) (word x2) (word y2) (word x3) (word y3)
    else (offsets thickness).flatMap fun i =>
      [.line x1 (y1 + i) x2 (y2 + i), .line x2 (y2 + i) x3 (y3 + i),
        .line x3 (y3 + i) x1 (y1 + i)]

/-- The square of the part of its greatest height that an ellipse has at a horizontal distance from
its centre. `number` says what integers stand for in the arithmetic that it is computed in. -/
def ellipsePart {α : Type} [Sub α] [Div α] (number : Int → α) (radiusX dx : Int) : α :=
  number 1 - number (dx * dx) / number (radiusX * radiusX)

/-- The vertical half-extent of an ellipse at a horizontal distance from its centre. -/
def ellipseHeight (radiusX radiusY dx : Int) : Float32 :=
  narrow (widen (single radiusY) * (widen (ellipsePart single radiusX dx)).sqrt)

/-- An ellipse with horizontal and vertical half-axes. -/
def ellipse (centerX centerY radiusX radiusY : Int) (filled : Bool) (color : Color)
    (thickness : Int) : List Event :=
  .setColor color ::
    if filled then (span (-radiusX) radiusX).map fun dx =>
      let height := ellipseHeight radiusX radiusY dx
      .line (centerX + dx) (truncateSingle (single centerY - height))
        (centerX + dx) (truncateSingle (single centerY + height))
    else (rings thickness).flatMap fun t => dots centerX centerY (radiusX + t) (radiusY + t)

end DrawPlus.Shape
