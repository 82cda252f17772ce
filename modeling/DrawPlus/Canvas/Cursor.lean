import DrawPlus.Canvas.Event
import DrawPlus.Loop

/-!
# Cursors

A cursor has a position, a direction in degrees, a thickness and a colour. The numbers for position
and direction may be of any type in which angles can be measured, so that turning a cursor is the
same for floating-point numbers and for exact ones.
-/

namespace DrawPlus

/-- Numbers in which an angle is measured. `turns a` bounds the number of full turns between `a` and
the range from zero to a full turn. -/
class Degrees (α : Type) extends Add α, Sub α where
  fullTurn : α
  isFull : α → Bool
  isNegative : α → Bool
  turns : α → Nat

instance : Degrees Float where
  fullTurn := 360.0
  isFull angle := angle ≥ 360.0
  isNegative angle := angle < 0.0
  turns angle := (angle.abs / 360.0).toUInt64.toNat + 2

namespace Degrees

/-- Take away full turns while there is one, at most `count` of them. -/
def lower {α : Type} [Degrees α] (count : Nat) (angle : α) : α :=
  repeatWhile isFull (· - fullTurn) count angle

/-- Add full turns while the angle is negative, at most `count` of them. -/
def raise {α : Type} [Degrees α] (count : Nat) (angle : α) : α :=
  repeatWhile isNegative (· + fullTurn) count angle

/-- The angle brought between zero and a full turn. -/
def reduce {α : Type} [Degrees α] (angle : α) : α :=
  let lowered := lower (turns angle) angle
  raise (turns lowered) lowered

end Degrees

structure Cursor (α : Type) where
  x : α
  y : α
  angle : α
  thickness : Int
  color : Color
  visible : Bool
  active : Bool

namespace Cursor

def rotate {α : Type} [Degrees α] (c : Cursor α) (amount : α) : Cursor α :=
  { c with angle := Degrees.reduce (c.angle + amount) }

def unused : Cursor Float :=
  ⟨0, 0, 0, 0, .unset, false, false⟩

/-- A new cursor: it points to the right, is one wide, blue and visible. -/
def new (x y : Float) : Cursor Float :=
  ⟨x, y, 0, 1, Hue.blue.color, true, true⟩

end Cursor

end DrawPlus
