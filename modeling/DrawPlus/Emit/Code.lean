import DrawPlus.Emit.Dialect
import DrawPlus.Emit.Page
import DrawPlus.Text.Case
import DrawPlus.Tree.Node

/-!
# Code for trees

`Emit.node` writes the code of a node. Expressions are returned as text, fully parenthesised;
statements are written on the page as lines and return no text. Where an expression is wanted and
none is given, the word `None` stands in the code; an empty place gives the empty text.

`Emit.program` writes a whole program: the header lines, a main function that opens the window,
runs the statements, shows the cursors that were made visible, and saves the picture.
-/

namespace DrawPlus

/-- Writing on a page; what was written before a failure stays. -/
abbrev Emit := EStateM EmitError Page

namespace Emit

def line (text : String) : Emit Unit := fun p => .ok () (p.write text)

def deeper : Emit Unit := fun p => .ok () p.deeper

def shallower : Emit Unit := fun p => .ok () p.shallower

def change (f : Page → Page) : Emit Unit := fun p => .ok () (f p)

def page : Emit Page := fun p => .ok p p

/-- Text that may be missing, as it stands in code. -/
def inCode (text : Option String) : String :=
  text.getD "None"

def call (function : String) (arguments : List String) : Emit Unit :=
  line (function ++ "(" ++ ", ".intercalate arguments ++ ");")

def firstOf (count : Nat) (texts : List String) : Emit (List String) :=
  if count ≤ texts.length then return texts.take count else throw .tooFewParts

/-- Remember a cursor to be shown at the end of the program. -/
def remember (cursor : String) : Emit Unit := fun p =>
  match p.shown with
  | some cursors => .ok () { p with shown := some (cursors ++ [cursor]) }
  | none => .error .noProgramBegun p

/-- The statement for a method of a cursor. Unknown methods write nothing. -/
def method (cursor : String) (name : Value) (arguments : List String) : Emit Unit := do
  match name with
  | .text "move" => call "move_cursor" (cursor :: (← firstOf 1 arguments))
  | .text "rotate" => call "rotate_cursor" (cursor :: (← firstOf 1 arguments))
  | .text "color" => call "set_cursor_color" (cursor :: (← firstOf 1 arguments))
  | .text "thickness" =>
    let value ← firstOf 1 arguments
    line (cursor ++ "->thickness = (int)" ++ String.join value ++ ";")
  | .text "visible" =>
    call "set_cursor_visibility" [cursor, "true"]
    remember cursor
  | _ => return

/-- The statement for a shape. Unknown shapes write nothing. -/
def shape (cursor : String) (name : Value) (arguments : List String) : Emit Unit := do
  match name with
  | .text "draw_line" => call "cursor_draw_line" (cursor :: (← firstOf 1 arguments))
  | .text "draw_rectangle" => call "cursor_draw_rectangle" (cursor :: (← firstOf 3 arguments))
  | .text "draw_circle" => call "cursor_draw_circle" (cursor :: (← firstOf 2 arguments))
  | .text "draw_triangle" => call "cursor_draw_triangle" (cursor :: (← firstOf 3 arguments))
  | .text "draw_ellipse" => call "cursor_draw_ellipse" (cursor :: (← firstOf 3 arguments))
  | _ => return

/-- A truth value, which is true exactly when it reads so in lower case. -/
def truth : Value → Emit String
  | .text word =>
    return if Text.lower word.toList = "true".toList then "true" else "false"
  | _ => throw .truthNotText

def mixed (red green blue : String) : String :=
  "custom_color((Uint8)" ++ red ++ ", (Uint8)" ++ green ++ ", (Uint8)" ++ blue ++ ", 255)"

mutual

def node (d : Dialect) : Node → Emit (Option String)
  | .absent => return some ""
  | .bare => throw (.noRule Node.bare.classText)
  | .program _ => return none
  | .varDecl type name init => do
    let value ← match init with
      | .absent => pure (some "0")
      | init => node d init
    line (d.typeText type ++ " " ++ name.display ++ " = " ++ inCode value ++ ";")
    return none
  | .assign name value => do
    let text ← node d value
    line (name.display ++ " = " ++ inCode text ++ ";")
    return none
  | .cursorCreation name x y => do
    let x ← node d x
    let y ← node d y
    line ("Cursor* " ++ name.display ++ " = create_cursor(" ++ inCode x ++ ", " ++ inCode y ++ ");")
    return none
  | .cursorMethod cursor name given => do
    let texts ← arguments d given
    method cursor.display name texts
    return none
  | .drawCommand cursor name given => do
    let texts ← arguments d given
    shape cursor.display name texts
    return none
  | .branch condition body alternatives otherwise => do
    let test ← node d condition
    line ("if (" ++ inCode test ++ ") \x7b")
    deeper
    statements d body
    shallower
    arms d alternatives
    match otherwise with
    | none | some [] => pure ()
    | some block =>
      line "\x7d else \x7b"
      deeper
      statements d block
      shallower
    line "\x7d"
    return none
  | .whileLoop condition body => do
    let test ← node d condition
    line ("while (" ++ inCode test ++ ") \x7b")
    deeper
    statements d body
    shallower
    line "\x7d"
    return none
  | .forLoop init condition update body => do
    -- the three parts of the header are written on a page of their own
    let before ← page
    change fun p => { p with lines := [], loopIndent := p.indent }
    let _ ← node d init
    let initText := (← page).joined
    change fun p => { p with lines := [], indent := p.loopIndent }
    let test ← node d condition
    match test with
    | none => throw .noCondition
    | some test =>
      let _ ← node d update
      let updateText := withoutSemicolon (← page).joined
      change fun p => { p with lines := before.lines }
      line ("for (" ++ initText ++ " " ++ withoutSemicolon test ++ "; " ++ updateText ++ ") \x7b")
      deeper
      statements d body
      shallower
      line "\x7d"
      return none
  | .binary left operator right => do
    let left ← node d left
    let right ← node d right
    return some ("(" ++ inCode left ++ " " ++ d.operatorText operator ++ " " ++ inCode right ++ ")")
  | .number value => return some value.display
  | .text value => return some ("\"" ++ value.display ++ "\"")
  | .truth value => do return some (← truth value)
  | .color name parts =>
    if name.isVoid then
      match parts with
      | some values => do return some (← components d values)
      | none => return some "black"
    else return some (d.colorText name)
  | .variable .absent => return none
  | .variable name => return some name.display

def statements (d : Dialect) : List Node → Emit Unit
  | [] => return
  | first :: rest => do
    let _ ← node d first
    statements d rest

/-- Write the further conditions of a branch with their statements. -/
def arms (d : Dialect) : List (Node × List Node) → Emit Unit
  | [] => return
  | (condition, body) :: rest => do
    let test ← node d condition
    line ("\x7d else if (" ++ inCode test ++ ") \x7b")
    deeper
    statements d body
    shallower
    arms d rest

def arguments (d : Dialect) : List Node → Emit (List String)
  | [] => return []
  | first :: rest => do
    let text ← node d first
    let texts ← arguments d rest
    return inCode text :: texts

/-- A colour by its first three components; without any it is black. -/
def components (d : Dialect) : List Node → Emit String
  | [] => return "black"
  | [red] => do
    let _ ← node d red
    throw .tooFewParts
  | [red, green] => do
    let _ ← node d red
    let _ ← node d green
    throw .tooFewParts
  | red :: green :: blue :: _ => do
    let red ← node d red
    let green ← node d green
    let blue ← node d blue
    return mixed (inCode red) (inCode green) (inCode blue)

end

/-- The header lines and the opening of the main function. -/
def opening (headers : List String) : Emit Unit :=
  change fun p =>
    let p := (headers.foldl Page.write p).write ""
    let p := (p.write "int main(int argc, char* argv[]) \x7b").deeper
    let p := p.write "printf(\"Initializing SDL...\\n\");"
    let p := p.write "if (!initialize_SDL()) \x7b"
    let p := p.writeInside ["printf(\"Failed to initialize SDL\\n\");", "return 1;"]
    (p.write "\x7d").write ""

def showCursors : Emit Unit :=
  change fun p =>
    match p.shown with
    | none | some [] => p
    | some cursors =>
      cursors.foldl (fun p c => p.write ("set_cursor_visibility(" ++ c ++ ", true);"))
        (p.write "// Dessiner les curseurs visibles après les formes")

/-- The end of the main function: present the picture, save it, clean up. -/
def closing : Emit Unit :=
  change fun p =>
    let p := p.write "SDL_Delay(130);"
    let p := p.write "printf(\"Presenting renderer...\\n\");"
    let p := (p.write "SDL_RenderPresent(renderer);").write ""
    let p := p.write "printf(\"Saving output image...\\n\");"
    let p := p.write "SDL_Surface* surface = SDL_CreateRGBSurfaceWithFormat("
    let p := p.writeInside ["0, windowWidth, windowHeight, 32, SDL_PIXELFORMAT_RGBA8888);"]
    let p := (p.write "").write "if (!surface) \x7b"
    let p := p.writeInside
      ["printf(\"Failed to create surface\\n\");", "cleanup_SDL();", "return 1;"]
    let p := (p.write "\x7d").write ""
    let p := p.write ("if (SDL_RenderReadPixels(renderer, NULL, surface->format->format, " ++
      "surface->pixels, surface->pitch) != 0) \x7b")
    let p := p.writeInside ["printf(\"Failed to read pixels: %s\\n\", SDL_GetError());"]
    let p := p.write "\x7d"
    let p := p.write "else if (SDL_SaveBMP(surface, \"output.bmp\") != 0) \x7b"
    let p := p.writeInside ["printf(\"Failed to save BMP: %s\\n\", SDL_GetError());"]
    let p := p.write "\x7d else \x7b"
    let p := p.writeInside ["printf(\"Image saved as output.bmp\\n\");"]
    let p := (p.write "\x7d").write ""
    let p := (p.write "SDL_FreeSurface(surface);").write ""
    let p := p.write "printf(\"Cleaning up...\\n\");"
    let p := (p.write "cleanup_SDL();").write ""
    let p := p.write "printf(\"Done!\\n\");"
    ((p.write "return 0;").shallower).write "\x7d"

/-- Write a whole program and return the text on the page. -/
def program (d : Dialect) (tree : Node) : Emit String := do
  change fun p => { p with shown := some [] }
  match d.headers with
  | none => throw .noHeaders
  | some headers =>
    opening headers
    match tree.statements? with
    | none => throw .notProgram
    | some body =>
      statements d body
      showCursors
      closing
      return (← page).text

end Emit

def Node.code (d : Dialect) (tree : Node) : Except EmitError String :=
  match Emit.program d tree Page.blank with
  | .ok code _ => .ok code
  | .error e _ => .error e

end DrawPlus
