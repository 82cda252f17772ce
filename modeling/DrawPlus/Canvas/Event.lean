import DrawPlus.Hue

/-!
# Colours and events

A colour has a red, a green and a blue component and an opacity, each a byte. Every request to the
display and every message is an event. The display draws in the colour that was set last.
-/

namespace DrawPlus

structure Color where
  red : UInt8
  green : UInt8
  blue : UInt8
  opacity : UInt8
deriving DecidableEq

namespace Color

def black : Color := ⟨0, 0, 0, 255⟩

def white : Color := ⟨255, 255, 255, 255⟩

/-- The colour in which nothing is drawn yet. -/
def unset : Color := ⟨0, 0, 0, 0⟩

/-- The components in order, the opacity last. -/
def channels (c : Color) : List UInt8 :=
  [c.red, c.green, c.blue, c.opacity]

end Color

def Hue.color : Hue → Color
  | .black => .black
  | .white => .white
  | .red => ⟨255, 0, 0, 255⟩
  | .green => ⟨0, 255, 0, 255⟩
  | .blue => ⟨0, 0, 255, 255⟩
  | .gray => ⟨128, 128, 128, 255⟩
  | .lightGray => ⟨192, 192, 192, 255⟩
  | .darkGray => ⟨64, 64, 64, 255⟩
  | .orange => ⟨255, 165, 0, 255⟩
  | .brown => ⟨165, 42, 42, 255⟩
  | .pink => ⟨255, 192, 203, 255⟩
  | .coral => ⟨255, 127, 80, 255⟩
  | .gold => ⟨255, 215, 0, 255⟩
  | .purple => ⟨128, 0, 128, 255⟩
  | .indigo => ⟨75, 0, 130, 255⟩
  | .turquoise => ⟨64, 224, 208, 255⟩
  | .navy => ⟨0, 0, 128, 255⟩
  | .teal => ⟨0, 128, 128, 255⟩
  | .forestGreen => ⟨34, 139, 34, 255⟩
  | .skyBlue => ⟨135, 206, 235, 255⟩
  | .olive => ⟨128, 128, 0, 255⟩
  | .salmon => ⟨250, 128, 114, 255⟩
  | .beige => ⟨245, 245, 220, 255⟩
  | .yellow => ⟨255, 255, 0, 255⟩

def Hue.ofConstant? (name : String) : Option Hue :=
  Hue.all.find? fun h => h.constant == name

inductive Event where
  | setColor (color : Color)
  | line (x1 y1 x2 y2 : Int)
  | outline (x y width height : Int)
  | fill (x y width height : Int)
  | point (x y : Int)
  | clear
  | present
  | start (flags : Nat)
  | openWindow (title : String) (x y width height flags : Nat)
  | openRenderer (index : Int) (flags : Nat)
  | closeRenderer
  | closeWindow
  | stop
  | print (text : String)
  | log (text : String)
deriving DecidableEq

/-- The colour after some events, when it was `color` before them. -/
def Event.lastColor (color : Color) (events : List Event) : Color :=
  events.foldl (fun color event =>
    match event with
    | .setColor new => new
    | _ => color) color

end DrawPlus
