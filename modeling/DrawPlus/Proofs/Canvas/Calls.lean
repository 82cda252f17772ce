import Mathlib
import DrawPlus.Canvas.Basic

/-!
# Sequences of calls

The functions of the drawing library as data, so that a program's use of the library is a list of
calls. `perform` carries out one of them and `run` a whole list. A cursor is named by its place in
the pool, or not at all, as in the functions themselves.
-/

namespace DrawPlus.Canvas

inductive Call where
  | openWindow (refusals : Refusals)
  | close
  | createCursor (x y : Float)
  | move (cursor : Option ℕ) (distance : Float)
  | rotate (cursor : Option ℕ) (angle : Float)
  | setColor (cursor : Option ℕ) (color : Color)
  | setVisible (cursor : Option ℕ) (visible : Bool)
  | setThickness (cursor : Option ℕ) (thickness : ℤ)
  | clearArea (x y width height : ℤ)
  | drawLine (cursor : Option ℕ) (length : Float)
  | drawRectangle (cursor : Option ℕ) (width height : Float) (filled : Bool)
  | drawCircle (cursor : Option ℕ) (radius : Float) (filled : Bool)
  | drawTriangle (cursor : Option ℕ) (base height : Float) (filled : Bool)
  | drawEllipse (cursor : Option ℕ) (radiusX radiusY : Float) (filled : Bool)
  | line (x1 y1 x2 y2 : ℤ) (color : Color) (thickness : ℤ)
  | rectangle (x y width height : ℤ) (filled : Bool) (color : Color) (thickness : ℤ)
  | circle (x y radius : ℤ) (filled : Bool) (color : Color) (thickness : ℤ)
  | triangle (x1 y1 x2 y2 x3 y3 : ℤ) (filled : Bool) (color : Color) (thickness : ℤ)
  | ellipse (x y radiusX radiusY : ℤ) (filled : Bool) (color : Color) (thickness : ℤ)

def perform (c : Canvas) : Call → Canvas
  | .openWindow refusals => (c.openWindow refusals).2
  | .close => c.close
  | .createCursor x y => (c.createCursor x y).2
  | .move cursor distance => c.move cursor distance
  | .rotate cursor angle => c.rotate cursor angle
  | .setColor cursor color => c.setColor cursor color
  | .setVisible cursor visible => c.setVisible cursor visible
  | .setThickness cursor thickness => c.setThickness cursor thickness
  | .clearArea x y width height => c.clearArea x y width height
  | .drawLine cursor length => c.drawLine cursor length
  | .drawRectangle cursor width height filled => c.drawRectangle cursor width height filled
  | .drawCircle cursor radius filled => c.drawCircle cursor radius filled
  | .drawTriangle cursor base height filled => c.drawTriangle cursor base height filled
  | .drawEllipse cursor radiusX radiusY filled => c.drawEllipse cursor radiusX radiusY filled
  | .line x1 y1 x2 y2 color thickness => c.record (Shape.line x1 y1 x2 y2 color thickness)
  | .rectangle x y width height filled color thickness =>
    c.record (Shape.rectangle x y width height filled color thickness)
  | .circle x y radius filled color thickness =>
    c.record (Shape.circle x y radius filled color thickness)
  | .triangle x1 y1 x2 y2 x3 y3 filled color thickness =>
    c.record (Shape.triangle x1 y1 x2 y2 x3 y3 filled color thickness)
  | .ellipse x y radiusX radiusY filled color thickness =>
    c.record (Shape.ellipse x y radiusX radiusY filled color thickness)

def run (c : Canvas) (calls : List Call) : Canvas := calls.foldl perform c

@[simp] theorem run_nil (c : Canvas) : c.run [] = c := rfl

@[simp] theorem run_concat (c : Canvas) (calls : List Call) (call : Call) :
    c.run (calls ++ [call]) = (c.run calls).perform call := by
  rw [run, run, List.foldl_append]
  rfl

end DrawPlus.Canvas
