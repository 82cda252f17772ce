/-!
# Predefined colours

The 24 colours that have a name of their own. Programs write the name in capitals, generated code
in small letters.
-/

namespace DrawPlus

inductive Hue where
  | black | white | red | green | blue | gray | lightGray | darkGray
  | orange | brown | pink | coral | gold | purple | indigo | turquoise
  | navy | teal | forestGreen | skyBlue | olive | salmon | beige | yellow
deriving DecidableEq, Repr

namespace Hue

def all : List Hue :=
  [.black, .white, .red, .green, .blue, .gray, .lightGray, .darkGray,
    .orange, .brown, .pink, .coral, .gold, .purple, .indigo, .turquoise,
    .navy, .teal, .forestGreen, .skyBlue, .olive, .salmon, .beige, .yellow]

def name : Hue → String
  | .black => "BLACK"
  | .white => "WHITE"
  | .red => "RED"
  | .green => "GREEN"
  | .blue => "BLUE"
  | .gray => "GRAY"
  | .lightGray => "LIGHT_GRAY"
  | .darkGray => "DARK_GRAY"
  | .orange => "ORANGE"
  | .brown => "BROWN"
  | .pink => "PINK"
  | .coral => "CORAL"
  | .gold => "GOLD"
  | .purple => "PURPLE"
  | .indigo => "INDIGO"
  | .turquoise => "TURQUOISE"
  | .navy => "NAVY"
  | .teal => "TEAL"
  | .forestGreen => "FOREST_GREEN"
  | .skyBlue => "SKY_BLUE"
  | .olive => "OLIVE"
  | .salmon => "SALMON"
  | .beige => "BEIGE"
  | .yellow => "YELLOW"

def constant : Hue → String
  | .black => "black"
  | .white => "white"
  | .red => "red"
  | .green => "green"
  | .blue => "blue"
  | .gray => "gray"
  | .lightGray => "light_gray"
  | .darkGray => "dark_gray"
  | .orange => "orange"
  | .brown => "brown"
  | .pink => "pink"
  | .coral => "coral"
  | .gold => "gold"
  | .purple => "purple"
  | .indigo => "indigo"
  | .turquoise => "turquoise"
  | .navy => "navy"
  | .teal => "teal"
  | .forestGreen => "forest_green"
  | .skyBlue => "sky_blue"
  | .olive => "olive"
  | .salmon => "salmon"
  | .beige => "beige"
  | .yellow => "yellow"

end Hue

end DrawPlus
