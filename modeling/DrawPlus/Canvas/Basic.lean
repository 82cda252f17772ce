import DrawPlus.Canvas.Cursor
import DrawPlus.Canvas.Shape

/-!
# The canvas

A canvas keeps a pool of ten cursors, whether a window and a renderer are open, the colour that the
display draws in, and the events so far. A cursor is named by its place in the pool, or not at all
when no cursor could be made. Operations on no cursor, or on one that is not active, do nothing;
only setting the thickness then says so.
-/

namespace DrawPlus

def maxCursors : Nat := 10

structure Refusals where
  start : Bool
  window : Bool
  renderer : Bool
deriving DecidableEq

/-- A canvas and everything it asked of the display. -/
structure Canvas where
  slots : List (Cursor Float)
  activeCount : Nat
  hasWindow : Bool
  hasRenderer : Bool
  color : Color
  events : List Event

namespace Canvas

def fresh : Canvas :=
  ⟨List.replicate maxCursors Cursor.unused, 0, false, false, .unset, []⟩

def record (c : Canvas) (events : List Event) : Canvas :=
  { c with events := c.events ++ events, color := Event.lastColor c.color events }

/-! ## The window -/

/-- Open the window and its renderer and clear them to white; stop at the first refusal. -/
def openWindow (refusals : Refusals) (c : Canvas) : Bool × Canvas :=
  let c := c.record [.start 32]
  if refusals.start then (false, c.record [.log "Unable to initialize SDL: stub error"])
  else
    let c := c.record [.openWindow "Draw++ Window" 805240832 805240832 800 600 4]
    if refusals.window then
      (false, { c with hasWindow := false }.record [.log "Could not create window: stub error"])
    else
      let c := { c with hasWindow := true }.record [.openRenderer (-1) 6]
      if refusals.renderer then
        (false,
          { c with hasRenderer := false }.record [.log "Could not create renderer: stub error"])
      else
        (true, { c with hasRenderer := true }.record [.setColor .white, .clear, .present])

def close (c : Canvas) : Canvas :=
  let renderer := if c.hasRenderer then [Event.closeRenderer] else []
  let window := if c.hasWindow then [Event.closeWindow] else []
  let closed : Canvas := { c with hasRenderer := false, hasWindow := false }
  closed.record (renderer ++ window ++ [.stop])

/-- Paint an area white and go back to the colour in use. -/
def clearArea (c : Canvas) (x y width height : Int) : Canvas :=
  if c.hasRenderer then
    c.record [.setColor .white, .fill x y width height, .setColor c.color]
  else c.record [.print "Error: Renderer is not initialized"]

/-! ## Cursors -/

/-- The first place in the pool without an active cursor. -/
def freeSlot? (c : Canvas) : Option Nat :=
  c.slots.findIdx? fun cursor => !cursor.active

/-- Make a cursor, unless all have been used. -/
def createCursor (c : Canvas) (x y : Float) : Option Nat × Canvas :=
  if maxCursors ≤ c.activeCount then
    (none, c.record [.print "Error: Maximum number of cursors reached"])
  else
    match c.freeSlot? with
    | none => (none, c)
    | some slot =>
      (some slot, { c with
        slots := c.slots.set slot (Cursor.new x y)
        activeCount := c.activeCount + 1 })

def active? (c : Canvas) (name : Option Nat) : Option (Nat × Cursor Float) := do
  let slot ← name
  let cursor ← c.slots[slot]?
  if cursor.active then some (slot, cursor) else none

def update (c : Canvas) (name : Option Nat) (change : Cursor Float → Cursor Float) : Canvas :=
  match c.active? name with
  | some (slot, cursor) => { c with slots := c.slots.set slot (change cursor) }
  | none => c

def drawWith (c : Canvas) (name : Option Nat) (shape : Cursor Float → List Event) : Canvas :=
  match c.active? name with
  | some (_, cursor) => c.record (shape cursor)
  | none => c

def radians (angle : Float) : Float :=
  angle * Shape.pi / 180.0

def move (c : Canvas) (name : Option Nat) (distance : Float) : Canvas :=
  c.update name fun cursor =>
    let direction := radians cursor.angle
    { cursor with
      x := cursor.x + distance * direction.cos
      y := cursor.y + distance * direction.sin }

def rotate (c : Canvas) (name : Option Nat) (angle : Float) : Canvas :=
  c.update name fun cursor => cursor.rotate angle

def setColor (c : Canvas) (name : Option Nat) (color : Color) : Canvas :=
  c.update name fun cursor => { cursor with color := color }

/-- The half-width of the square that marks a cursor. -/
def markerReach : Int := 5

/-- Show a cursor by a black square, or wipe the place of the square. -/
def setVisible (c : Canvas) (name : Option Nat) (visible : Bool) : Canvas :=
  match c.active? name with
  | none => c
  | some (slot, cursor) =>
    let c := { c with slots := c.slots.set slot { cursor with visible := visible } }
    let x := Shape.truncate cursor.x - markerReach
    let y := Shape.truncate cursor.y - markerReach
    if visible then c.record (Shape.rectangle x y 10 10 true .black 1)
    else c.clearArea x y 10 10

/-- Change the thickness of a cursor to a positive one. -/
def setThickness (c : Canvas) (name : Option Nat) (thickness : Int) : Canvas :=
  match c.active? name with
  | none => c.record [.print "Error: Cursor is not valid or active"]
  | some _ =>
    if thickness ≤ 0 then c.record [.print "Error: Thickness must be greater than 0"]
    else
      (c.update name fun cursor => { cursor with thickness := thickness }).record
        [.print ("Cursor thickness set to " ++ toString thickness)]

/-- Take a cursor out of use; the count of cursors made stays. -/
def deactivate (c : Canvas) (name : Option Nat) : Canvas :=
  match name with
  | some slot =>
    { c with slots := c.slots.modify slot fun cursor => { cursor with active := false } }
  | none => c

/-! ## Drawing with cursors -/

def drawLine (c : Canvas) (name : Option Nat) (length : Float) : Canvas :=
  c.drawWith name fun cursor =>
    let direction := radians cursor.angle
    Shape.line (Shape.truncate cursor.x) (Shape.truncate cursor.y)
      (Shape.truncate (cursor.x + length * direction.cos))
      (Shape.truncate (cursor.y + length * direction.sin)) cursor.color cursor.thickness

def drawRectangle (c : Canvas) (name : Option Nat) (width height : Float) (filled : Bool) :
    Canvas :=
  c.drawWith name fun cursor =>
    Shape.rectangle (Shape.truncate cursor.x) (Shape.truncate cursor.y) (Shape.truncate width)
      (Shape.truncate height) filled cursor.color cursor.thickness

def drawCircle (c : Canvas) (name : Option Nat) (radius : Float) (filled : Bool) : Canvas :=
  c.drawWith name fun cursor =>
    Shape.circle (Shape.truncate cursor.x) (Shape.truncate cursor.y) (Shape.truncate radius) filled
      cursor.color cursor.thickness

/-- A triangle with its right angle at a cursor and its base in the cursor's direction. -/
def drawTriangle (c : Canvas) (name : Option Nat) (base height : Float) (filled : Bool) : Canvas :=
  c.drawWith name fun cursor =>
    let direction := radians cursor.angle
    let upward := direction + Shape.pi / 2.0
    let x := Shape.truncate cursor.x
    let y := Shape.truncate cursor.y
    Shape.triangle x y
      (Shape.truncate (Float.ofInt x + base * direction.cos))
      (Shape.truncate (Float.ofInt y + base * direction.sin))
      (Shape.truncate (Float.ofInt x + height * upward.cos))
      (Shape.truncate (Float.ofInt y + height * upward.sin)) filled cursor.color cursor.thickness

def drawEllipse (c : Canvas) (name : Option Nat) (radiusX radiusY : Float) (filled : Bool) :
    Canvas :=
  c.drawWith name fun cursor =>
    Shape.ellipse (Shape.truncate cursor.x) (Shape.truncate cursor.y) (Shape.truncate radiusX)
      (Shape.truncate radiusY) filled cursor.color cursor.thickness

end Canvas

end DrawPlus
